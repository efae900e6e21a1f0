import CppTorrent.Lib.Runs
import CppTorrent.Tracker.Announce

/-! # The retries of a UDP tracker requester

The requester tries to connect up to four times at every endpoint, and after every reply to a connect
request it tries to announce up to three times. The counters are decremented by the test for zero
itself, so they wrap around when they are zero, and are reset right after. A short send sets them to
zero: the next test then goes on to the next endpoint, or from the announcing back to the connecting.

A state has the operation in progress; the steps are the ways in which it ends. A send fails, or some
bytes are sent; a read fails or times out, or a datagram comes; a delay ends. Whether a delay is skipped
because it is already over is left open (`late`). A datagram whose peers leave the buffer has no next
state.

`finishes_run` bounds the sends and the steps of every run, and shows that a requester that has not
settled its promise has an operation in progress and goes on whatever the network does. -/

namespace CppTorrent.Tracker.UdpRetries

open CppTorrent.Lib.Endian CppTorrent.Lib.Runs
open CppTorrent.Tracker.Promise CppTorrent.Tracker.Announce

/-- `bittorrent_constants::MAX_CONNECT_ATTEMPTS`. -/
def maxConnectAttempts : ℕ := 4

/-- `bittorrent_constants::MAX_ANNOUNCE_ATTEMPTS`. -/
def maxAnnounceAttempts : ℕ := 3

/-- The operation in progress. -/
inductive Pending where
  | nothing
  /-- the `Send` of `do_try_connect` -/
  | connectSend
  /-- the `Read` of `do_connect_response` -/
  | connectRead
  /-- the `Await` of `do_try_connect_delay` -/
  | connectDelay
  /-- the `Send` of `do_try_announce` -/
  | announceSend
  /-- the `Read` of `do_announce_response` -/
  | announceRead
  /-- the `Await` of `do_try_announce_delay` -/
  | announceDelay
  deriving DecidableEq

/-- `network::udpRequester`. -/
structure State where
  connectAttempts : ℕ
  announceAttempts : ℕ
  /-- the endpoints behind the current one -/
  later : ℕ
  /-- the transaction id of `c_req_` -/
  transactionId : ℕ
  /-- the ids of `c_resp_` -/
  connection : ℕ × ℕ
  pending : Pending
  requester : Requester
  /-- the sends of connect requests so far -/
  connectSends : ℕ
  /-- the sends of announce requests so far -/
  announceSends : ℕ

/-- Decrements a counter of type `size_t`. -/
def decrement (n : ℕ) : ℕ := (n + (2 ^ 64 - 1)) % 2 ^ 64

/-- `udpRequester::do_try_connect`; where no attempts are left it goes on with `update_endpoint`, which
tries the endpoints behind the current one. -/
def doTryConnect : ℕ → State → State
  | later, s =>
    let attempts := s.connectAttempts
    let s := { s with connectAttempts := decrement attempts, later := later }
    if attempts = 0 then
      let s := { s with connectAttempts := maxConnectAttempts }
      -- `update_endpoint`
      match later with
      | 0 => { s with
          pending := .nothing
          requester := s.requester.setException
            "all endpoints were polled but without success" }
      | later + 1 => doTryConnect later s
    else { s with pending := .connectSend, connectSends := s.connectSends + 1 }

/-- `udpRequester::do_try_connect_delay`. -/
def doTryConnectDelay (late : Bool) (s : State) : State :=
  if late then doTryConnect s.later s else { s with pending := .connectDelay }

/-- `udpRequester::do_try_announce`. -/
def doTryAnnounce (s : State) : State :=
  let attempts := s.announceAttempts
  let s := { s with announceAttempts := decrement attempts }
  if attempts = 0 then doTryConnect s.later { s with announceAttempts := maxAnnounceAttempts }
  else { s with pending := .announceSend, announceSends := s.announceSends + 1 }

/-- `udpRequester::do_try_announce_delay`. -/
def doTryAnnounceDelay (late : Bool) (s : State) : State :=
  if late then doTryAnnounce s else { s with pending := .announceDelay }

/-- How the operation in progress ends. -/
inductive Event where
  /-- an error, or a read that has timed out -/
  | failed
  | sent (bytesTransferred : ℕ) (late : Bool)
  | received (datagram : List UInt8) (late : Bool)
  /-- a delay is over -/
  | timer

variable (host : Host)

/-- One step: the callbacks of the operation in progress. -/
def step (s : State) : Event → Option State
  | .failed =>
    match s.pending with
    | .connectSend => some (doTryConnect s.later { s with connectAttempts := 0 })
    | .connectRead => some (doTryConnect s.later s)
    | .announceSend => some (doTryAnnounce s)
    | .announceRead => some (doTryAnnounce s)
    | _ => none
  | .sent bytesTransferred late =>
    match s.pending with
    | .connectSend =>
      if bytesTransferred < 16 then some (doTryConnectDelay late { s with connectAttempts := 0 })
      else some { s with pending := .connectRead }
    | .announceSend =>
      if bytesTransferred ≠ middleBuffSize then
        some (doTryAnnounceDelay late { s with announceAttempts := 0, connectAttempts := 0 })
      else some { s with pending := .announceRead }
    | _ => none
  | .received datagram late =>
    match s.pending with
    | .connectRead =>
      if shortBuffSize < datagram.length then none
      else (onConnectResponse host s.transactionId datagram).map fun
        | .delay => doTryConnectDelay late s
        | .connected connectionId transactionId =>
          doTryAnnounce { s with connection := (connectionId, transactionId) }
    | .announceRead =>
      if mtu < datagram.length then none
      else (onAnnounceResponse host s.connection.2 datagram).bind fun
        | .delay => some (doTryAnnounceDelay late s)
        | .error => some (doTryAnnounceDelay late s)
        | .accepted data =>
          match setResponse host data s.requester with
          | .ok requester => some { s with pending := .nothing, requester := requester }
          | .error _ => none
    | _ => none
  | .timer =>
    match s.pending with
    | .connectDelay => some (doTryConnect s.later s)
    | .announceDelay => some (doTryAnnounce s)
    | _ => none

/-- The first `do_try_connect` of `Connect`, for a number of endpoints. -/
def start (transactionId endpoints : ℕ) : State :=
  doTryConnect (endpoints - 1)
    ⟨maxConnectAttempts, maxAnnounceAttempts, endpoints - 1, transactionId, (0, 0), .nothing, waiting,
      0, 0⟩

/-- What can end the operation in progress. The peers of a good reply stay in the buffer. -/
def Possible (s : State) : Event → Prop
  | .failed => s.pending = .connectSend ∨ s.pending = .connectRead ∨ s.pending = .announceSend ∨
      s.pending = .announceRead
  | .sent _ _ => s.pending = .connectSend ∨ s.pending = .announceSend
  | .received datagram _ =>
    (s.pending = .connectRead ∧ datagram.length ≤ shortBuffSize) ∨
      (s.pending = .announceRead ∧ datagram.length ≤ mtu ∧ ∀ data,
        onAnnounceResponse host s.connection.2 datagram = some (.accepted data) →
          StaysInside host data 20)
  | .timer => s.pending = .connectDelay ∨ s.pending = .announceDelay

/-! ### The invariant -/

/-- How many steps an operation can take until the next send, or until the promise is settled. -/
def Pending.weight : Pending → ℕ
  | .nothing => 0
  | .connectSend => 3
  | .connectRead => 2
  | .connectDelay => 1
  | .announceSend => 3
  | .announceRead => 2
  | .announceDelay => 1

/-- What holds whenever `do_try_connect` is called, for a number of endpoints in all. -/
structure Ready (endpoints later : ℕ) (s : State) : Prop where
  connectAttempts : s.connectAttempts ≤ maxConnectAttempts
  announceAttempts : s.announceAttempts ≤ maxAnnounceAttempts
  /-- the connect requests sent and those that can still be sent -/
  connects : s.connectSends + s.connectAttempts + 4 * later ≤ 4 * endpoints
  announces : s.announceSends ≤ 3 * s.connectSends
  unset : s.requester.isSet = false

/-- What holds in every state. -/
structure Inv (endpoints : ℕ) (s : State) : Prop where
  connectAttempts : s.connectAttempts ≤ maxConnectAttempts
  announceAttempts : s.announceAttempts ≤ maxAnnounceAttempts
  connects : s.connectSends ≤ 4 * endpoints
  announces : s.announceSends ≤ 3 * s.connectSends
  /-- the connect requests that can still be sent -/
  remaining : s.pending ≠ .nothing →
    s.connectSends + s.connectAttempts + 4 * s.later ≤ 4 * endpoints
  /-- the announce requests that can still be sent after the last connect request -/
  phase : s.pending ≠ .nothing → s.announceSends + s.announceAttempts ≤ 3 * s.connectSends
  settled : s.pending = .nothing → s.requester.Answered
  unset : s.pending ≠ .nothing → s.requester.isSet = false

/-- What the sends have paid for, less what the operation in progress can still take. -/
def potential (s : State) : ℤ := 3 * (s.connectSends + s.announceSends) - s.pending.weight

/-- A state that an operation leads to meets the invariant, and owes a number of steps that the sends
have not paid for yet. -/
def LeadsTo (endpoints : ℕ) (s : State) (owed : ℕ) (s' : State) : Prop :=
  Inv endpoints s' ∧ 3 * (s.connectSends + s.announceSends : ℤ) ≤ potential s' + owed

theorem decrement_of_pos {n : ℕ} (h : n ≠ 0) (hn : n ≤ 4) : decrement n = n - 1 := by
  unfold decrement
  omega

variable {host} {endpoints : ℕ} {s s' : State}

theorem Inv.ready (h : Inv endpoints s) (hp : s.pending ≠ .nothing) : Ready endpoints s.later s :=
  ⟨h.connectAttempts, h.announceAttempts, h.remaining hp, h.announces, h.unset hp⟩

/-- The invariant is kept when only the operation in progress changes, and the counters get smaller. -/
theorem Inv.goOn (h : Inv endpoints s) (hp : s.pending ≠ .nothing) {connectAttempts announceAttempts : ℕ}
    (hc : connectAttempts ≤ s.connectAttempts) (ha : announceAttempts ≤ s.announceAttempts)
    (connection : ℕ × ℕ) (pending : Pending) (hpending : pending ≠ .nothing) :
    Inv endpoints { s with
      connectAttempts := connectAttempts
      announceAttempts := announceAttempts
      connection := connection
      pending := pending } where
  connectAttempts := hc.trans h.connectAttempts
  announceAttempts := ha.trans h.announceAttempts
  connects := h.connects
  announces := h.announces
  remaining := fun _ => by
    have hremaining := h.remaining hp
    show s.connectSends + connectAttempts + 4 * s.later ≤ 4 * endpoints
    omega
  phase := fun _ => by
    have hphase := h.phase hp
    show s.announceSends + announceAttempts ≤ 3 * s.connectSends
    omega
  settled := fun hnothing => absurd hnothing hpending
  unset := fun _ => h.unset hp

/-- An operation that sends nothing owes all that it can take. -/
theorem Inv.waits (h : Inv endpoints s) (hp : s.pending ≠ .nothing) {pending : Pending}
    (hpending : pending ≠ .nothing) :
    LeadsTo endpoints s pending.weight { s with pending := pending } := by
  refine ⟨h.goOn hp le_rfl le_rfl s.connection pending hpending, ?_⟩
  show (_ : ℤ) ≤ 3 * (s.connectSends + s.announceSends) - pending.weight + pending.weight
  omega

/-! ### One step -/

theorem doTryConnect_send {later : ℕ} (hpos : s.connectAttempts ≠ 0) (hc : s.connectAttempts ≤ 4) :
    doTryConnect later s = { s with
      connectAttempts := s.connectAttempts - 1
      later := later
      pending := .connectSend
      connectSends := s.connectSends + 1 } := by
  rw [doTryConnect]
  simp only [hpos, if_false, decrement_of_pos hpos hc]

theorem doTryConnect_promote {later : ℕ} (hzero : s.connectAttempts = 0) :
    doTryConnect (later + 1) s = doTryConnect later
      { s with connectAttempts := maxConnectAttempts, later := later + 1 } := by
  rw [doTryConnect]
  simp only [hzero, if_true]

theorem doTryConnect_dried (hzero : s.connectAttempts = 0) :
    doTryConnect 0 s = { s with
      connectAttempts := maxConnectAttempts
      later := 0
      pending := .nothing
      requester := s.requester.setException
        "all endpoints were polled but without success" } := by
  rw [doTryConnect]
  simp only [hzero, if_true]

/-- **`do_try_connect` sends, or settles the promise**; the induction is on the endpoints. -/
theorem doTryConnect_spec : ∀ (later : ℕ) {s : State}, Ready endpoints later s →
    LeadsTo endpoints s 0 (doTryConnect later s)
  | later, s, h => by
    obtain ⟨hc, ha, hconnects, hannounces, hunset⟩ := h
    unfold maxConnectAttempts at hc
    unfold maxAnnounceAttempts at ha
    by_cases hzero : s.connectAttempts = 0
    · match later with
      | 0 =>
        rw [doTryConnect_dried hzero]
        constructor
        · refine ⟨le_rfl, ha, ?_, hannounces, fun h => absurd rfl h, fun h => absurd rfl h,
            fun _ => Requester.answered_setException hunset _, fun h => absurd rfl h⟩
          show s.connectSends ≤ 4 * endpoints
          omega
        · show (_ : ℤ) ≤ 3 * (s.connectSends + s.announceSends) - (0 : ℕ) + (0 : ℕ)
          omega
      | later + 1 =>
        rw [doTryConnect_promote hzero]
        refine doTryConnect_spec later ⟨le_rfl, ha, ?_, hannounces, hunset⟩
        show s.connectSends + 4 + 4 * later ≤ 4 * endpoints
        omega
    · rw [doTryConnect_send hzero hc]
      constructor
      · have hsettled : Pending.connectSend ≠ .nothing := Pending.noConfusion
        refine ⟨?_, ha, ?_, ?_, fun _ => ?_, fun _ => ?_, fun h => absurd h hsettled, fun _ => hunset⟩
        · show s.connectAttempts - 1 ≤ 4
          omega
        · show s.connectSends + 1 ≤ 4 * endpoints
          omega
        · show s.announceSends ≤ 3 * (s.connectSends + 1)
          omega
        · show s.connectSends + 1 + (s.connectAttempts - 1) + 4 * later ≤ 4 * endpoints
          omega
        · show s.announceSends + s.announceAttempts ≤ 3 * (s.connectSends + 1)
          omega
      · show (_ : ℤ) ≤ 3 * ((s.connectSends + 1 : ℕ) + s.announceSends) - (3 : ℕ) + (0 : ℕ)
        omega

theorem doTryConnectDelay_spec (late : Bool) (h : Inv endpoints s) (hp : s.pending ≠ .nothing) :
    LeadsTo endpoints s 1 (doTryConnectDelay late s) := by
  unfold doTryConnectDelay
  split
  · obtain ⟨hinv, hpaid⟩ := doTryConnect_spec s.later (h.ready hp)
    exact ⟨hinv, by omega⟩
  · exact h.waits hp Pending.noConfusion

/-- **`do_try_announce` sends, or goes back to the connecting.** -/
theorem doTryAnnounce_spec (h : Inv endpoints s) (hp : s.pending ≠ .nothing) :
    LeadsTo endpoints s 0 (doTryAnnounce s) := by
  have ha : s.announceAttempts ≤ 3 := h.announceAttempts
  have hphase := h.phase hp
  by_cases hzero : s.announceAttempts = 0
  · have hback : doTryAnnounce s =
        doTryConnect s.later { s with announceAttempts := maxAnnounceAttempts } := by
      unfold doTryAnnounce
      simp only [hzero, if_true]
    rw [hback]
    exact doTryConnect_spec s.later
      ⟨h.connectAttempts, le_rfl, h.remaining hp, h.announces, h.unset hp⟩
  · have hsend : doTryAnnounce s = { s with
        announceAttempts := s.announceAttempts - 1
        pending := .announceSend
        announceSends := s.announceSends + 1 } := by
      unfold doTryAnnounce
      simp only [hzero, if_false, decrement_of_pos hzero (show s.announceAttempts ≤ 4 by omega)]
    rw [hsend]
    constructor
    · have hsettled : Pending.announceSend ≠ .nothing := Pending.noConfusion
      refine ⟨h.connectAttempts, ?_, h.connects, ?_, fun _ => h.remaining hp, fun _ => ?_,
        fun h => absurd h hsettled, fun _ => h.unset hp⟩
      · show s.announceAttempts - 1 ≤ 3
        omega
      · show s.announceSends + 1 ≤ 3 * s.connectSends
        omega
      · show s.announceSends + 1 + (s.announceAttempts - 1) ≤ 3 * s.connectSends
        omega
    · show (_ : ℤ) ≤ 3 * (s.connectSends + (s.announceSends + 1 : ℕ)) - (3 : ℕ) + (0 : ℕ)
      omega

theorem doTryAnnounceDelay_spec (late : Bool) (h : Inv endpoints s) (hp : s.pending ≠ .nothing) :
    LeadsTo endpoints s 1 (doTryAnnounceDelay late s) := by
  unfold doTryAnnounceDelay
  split
  · obtain ⟨hinv, hpaid⟩ := doTryAnnounce_spec h hp
    exact ⟨hinv, by omega⟩
  · exact h.waits hp Pending.noConfusion

/-- A step that owes less than its operation raises the potential. -/
theorem LeadsTo.raised {owed : ℕ} (h : LeadsTo endpoints s owed s') (howed : owed < s.pending.weight) :
    Inv endpoints s' ∧ potential s + 1 ≤ potential s' := by
  obtain ⟨hinv, hpaid⟩ := h
  refine ⟨hinv, ?_⟩
  show 3 * (s.connectSends + s.announceSends : ℤ) - s.pending.weight + 1 ≤ potential s'
  omega

/-- An operation that is not the last one has a weight. -/
theorem Pending.weight_pos {pending : Pending} (h : pending ≠ .nothing) : 0 < pending.weight := by
  rcases pending <;> first | exact absurd rfl h | exact Nat.succ_pos _

theorem pending_of_step {e : Event} (hs : step host s e = some s') : s.pending ≠ .nothing := by
  intro hnothing
  rcases e <;> simp only [step, hnothing, reduceCtorEq] at hs

theorem failed_spec (h : Inv endpoints s) (hs : step host s .failed = some s') :
    Inv endpoints s' ∧ potential s + 1 ≤ potential s' := by
  have hp : s.pending ≠ .nothing := pending_of_step hs
  refine LeadsTo.raised ?_ (Pending.weight_pos hp)
  rcases hpending : s.pending <;> simp only [step, hpending, reduceCtorEq, Option.some.injEq] at hs <;>
    subst hs
  · have hclear := h.goOn hp (Nat.zero_le _) le_rfl s.connection .connectSend Pending.noConfusion
    exact doTryConnect_spec s.later (hclear.ready Pending.noConfusion)
  · exact doTryConnect_spec s.later (h.ready hp)
  · exact doTryAnnounce_spec h hp
  · exact doTryAnnounce_spec h hp

theorem timer_spec (h : Inv endpoints s) (hs : step host s .timer = some s') :
    Inv endpoints s' ∧ potential s + 1 ≤ potential s' := by
  have hp : s.pending ≠ .nothing := pending_of_step hs
  refine LeadsTo.raised ?_ (Pending.weight_pos hp)
  rcases hpending : s.pending <;> simp only [step, hpending, reduceCtorEq, Option.some.injEq] at hs <;>
    subst hs
  · exact doTryConnect_spec s.later (h.ready hp)
  · exact doTryAnnounce_spec h hp

theorem sent_spec {bytesTransferred : ℕ} {late : Bool} (h : Inv endpoints s)
    (hs : step host s (.sent bytesTransferred late) = some s') :
    Inv endpoints s' ∧ potential s + 1 ≤ potential s' := by
  have hp : s.pending ≠ .nothing := pending_of_step hs
  rcases hpending : s.pending <;> simp only [step, hpending, reduceCtorEq] at hs
  · have hweight : 2 < s.pending.weight := by rw [hpending]; decide
    split at hs
    · cases hs
      have hclear := h.goOn hp (Nat.zero_le _) le_rfl s.connection .connectSend Pending.noConfusion
      exact LeadsTo.raised (s := s) (doTryConnectDelay_spec late hclear Pending.noConfusion) (by omega)
    · cases hs
      exact (h.waits hp Pending.noConfusion).raised hweight
  · have hweight : 2 < s.pending.weight := by rw [hpending]; decide
    split at hs
    · cases hs
      have hclear := h.goOn hp (Nat.zero_le _) (Nat.zero_le _) s.connection .announceSend
        Pending.noConfusion
      exact LeadsTo.raised (s := s) (doTryAnnounceDelay_spec late hclear Pending.noConfusion) (by omega)
    · cases hs
      exact (h.waits hp Pending.noConfusion).raised hweight

theorem received_spec {datagram : List UInt8} {late : Bool} (h : Inv endpoints s)
    (hs : step host s (.received datagram late) = some s') :
    Inv endpoints s' ∧ potential s + 1 ≤ potential s' := by
  have hp : s.pending ≠ .nothing := pending_of_step hs
  rcases hpending : s.pending <;> simp only [step, hpending, reduceCtorEq] at hs
  · have hweight : 1 < s.pending.weight := by rw [hpending]; decide
    split at hs
    · cases hs
    obtain ⟨reply, -, hreply⟩ := Option.map_eq_some_iff.mp hs
    subst hreply
    rcases reply with _ | ⟨connectionId, transactionId⟩
    · exact (doTryConnectDelay_spec late h hp).raised hweight
    · have hconnected := h.goOn hp le_rfl le_rfl (connectionId, transactionId) .connectRead
        Pending.noConfusion
      exact LeadsTo.raised (s := s) (doTryAnnounce_spec hconnected Pending.noConfusion) (by omega)
  · have hweight : 1 < s.pending.weight := by rw [hpending]; decide
    split at hs
    · cases hs
    obtain ⟨reply, hreply, hs⟩ := Option.bind_eq_some_iff.mp hs
    rcases reply with _ | _ | data
    · cases hs
      exact (doTryAnnounceDelay_spec late h hp).raised hweight
    · cases hs
      exact (doTryAnnounceDelay_spec late h hp).raised hweight
    · rcases hset : setResponse host data s.requester with fault | requester
      · simp only [hset, reduceCtorEq] at hs
      · simp only [hset, Option.some.injEq] at hs
        subst hs
        have hanswered : requester.Answered := answered_of_setResponse (h.unset hp) hset
        refine LeadsTo.raised (s := s) ⟨⟨h.connectAttempts, h.announceAttempts, h.connects,
          h.announces, fun h => absurd rfl h, fun h => absurd rfl h, fun _ => hanswered,
          fun h => absurd rfl h⟩, ?_⟩ hweight
        show (_ : ℤ) ≤ 3 * (s.connectSends + s.announceSends) - (0 : ℕ) + (1 : ℕ)
        omega

/-- **A step keeps the invariant and raises the potential.** -/
theorem inv_step (s : State) (e : Event) (s' : State) (h : Inv endpoints s)
    (hs : step host s e = some s') : Inv endpoints s' ∧ potential s + 1 ≤ potential s' := by
  rcases e with _ | ⟨bytesTransferred, late⟩ | ⟨datagram, late⟩ | _
  · exact failed_spec h hs
  · exact sent_spec h hs
  · exact received_spec h hs
  · exact timer_spec h hs

/-- **Whatever ends the operation in progress, there is a next state.** -/
theorem step_of_possible {e : Event} (h : Inv endpoints s) (hp : s.pending ≠ .nothing)
    (he : Possible host s e) : ∃ s', step host s e = some s' := by
  rcases e with _ | ⟨bytesTransferred, late⟩ | ⟨datagram, late⟩ | _
  · rcases he with he | he | he | he <;> simp only [step, he] <;> exact ⟨_, rfl⟩
  · rcases he with he | he <;> simp only [step, he] <;> split <;> exact ⟨_, rfl⟩
  · rcases he with ⟨he, hlen⟩ | ⟨he, hlen, hinside⟩
    · obtain ⟨reply, hreply⟩ := onConnectResponse_isSome host s.transactionId datagram
      simp only [step, he, if_neg (Nat.not_lt.mpr hlen), hreply, Option.map_some]
      exact ⟨_, rfl⟩
    · obtain ⟨reply, hreply⟩ := onAnnounceResponse_isSome host s.connection.2 datagram
      simp only [step, he, if_neg (Nat.not_lt.mpr hlen), hreply, Option.bind_some]
      rcases reply with _ | _ | data
      · exact ⟨_, rfl⟩
      · exact ⟨_, rfl⟩
      · obtain ⟨hdatagram, rfl⟩ := onAnnounceResponse_accepted hreply
        have hlen' : 20 ≤ (datagram ++ [0]).length := by
          rw [List.length_append]
          omega
        obtain ⟨requester, hset, -⟩ := setResponse_answered (h.unset hp) hlen' (hinside _ hreply)
        simp only [hset]
        exact ⟨_, rfl⟩
  · rcases he with he | he <;> simp only [step, he] <;> exact ⟨_, rfl⟩

/-! ### Runs -/

theorem inv_start (transactionId : ℕ) (h : 1 ≤ endpoints) :
    Inv endpoints (start transactionId endpoints) ∧ 0 ≤ potential (start transactionId endpoints) := by
  have hready : Ready endpoints (endpoints - 1) ⟨maxConnectAttempts, maxAnnounceAttempts,
      endpoints - 1, transactionId, (0, 0), .nothing, waiting, 0, 0⟩ := by
    refine ⟨le_rfl, le_rfl, ?_, le_rfl, rfl⟩
    show 0 + 4 + 4 * (endpoints - 1) ≤ 4 * endpoints
    omega
  obtain ⟨hinv, hpaid⟩ := doTryConnect_spec (endpoints - 1) hready
  refine ⟨hinv, ?_⟩
  have hstart : (0 : ℤ) ≤ potential (start transactionId endpoints) + (0 : ℕ) := hpaid
  omega

/-- A run keeps the invariant, and its length is bounded. -/
theorem inv_run (transactionId : ℕ) (h : 1 ≤ endpoints) {es : List Event}
    (hrun : run (step host) (start transactionId endpoints) es = some s) :
    Inv endpoints s ∧ es.length ≤ 48 * endpoints := by
  obtain ⟨hinv, hstart⟩ := inv_start transactionId h
  have hs : Inv endpoints s := invariant_of_run (Inv endpoints) (fun _ _ => True)
    (fun s e s' hi _ hs => (inv_step s e s' hi hs).1) hinv (along_true _ _) hrun
  have hlen := length_le_of_run (Inv endpoints) potential inv_step hinv hrun
  have hsends : potential s = 3 * (s.connectSends + s.announceSends) - s.pending.weight := rfl
  have hconnects := hs.connects
  have hannounces := hs.announces
  exact ⟨hs, by omega⟩

variable (host) in
/-- **The requester finishes.** Whatever strategy the network follows, if it ends every operation in a
possible way, the run comes to a state where the promise is settled and no operation is in progress.
No run has more than four connect and twelve announce requests for each endpoint, and the counters stay
in their ranges. -/
theorem finishes_run (transactionId : ℕ) (hendpoints : 1 ≤ endpoints) (network : List Event → Event)
    (hnetwork : ∀ es s, Follows network es →
      run (step host) (start transactionId endpoints) es = some s → s.pending ≠ .nothing →
        Possible host s (network es)) :
    (∃ es s, Follows network es ∧ run (step host) (start transactionId endpoints) es = some s ∧
        s.requester.Answered ∧ s.pending = .nothing) ∧
      ∀ es s, run (step host) (start transactionId endpoints) es = some s →
        s.connectSends ≤ 4 * endpoints ∧ s.announceSends ≤ 12 * endpoints ∧
          s.connectAttempts ≤ maxConnectAttempts ∧ s.announceAttempts ≤ maxAnnounceAttempts ∧
          es.length ≤ 48 * endpoints ∧ (s.pending = .nothing ↔ s.requester.Answered) := by
  constructor
  · obtain ⟨es, s, hfollows, hrun, hdone⟩ := finishes (fun s => s.pending = .nothing) network
      (fun es s hrun => (inv_run transactionId hendpoints hrun).2)
      fun es s hfollows hrun hgoing => step_of_possible (inv_run transactionId hendpoints hrun).1 hgoing
        (hnetwork es s hfollows hrun hgoing)
    exact ⟨es, s, hfollows, hrun, (inv_run transactionId hendpoints hrun).1.settled hdone, hdone⟩
  · intro es s hrun
    obtain ⟨hinv, hlen⟩ := inv_run transactionId hendpoints hrun
    have hannounces := hinv.announces
    have hconnects := hinv.connects
    refine ⟨hconnects, by omega, hinv.connectAttempts, hinv.announceAttempts, hlen, hinv.settled, ?_⟩
    intro hanswered
    by_contra hgoing
    have hunset := hinv.unset hgoing
    rw [hanswered.1] at hunset
    cases hunset

/-- A network that follows a script. -/
def scripted (script es : List Event) : Event := script.getD es.length .failed

theorem take_of_follows {script es : List Event} (h : Follows (scripted script) es) {k : ℕ}
    (hes : k ≤ es.length) (hscript : k ≤ script.length) : es.take k = script.take k := by
  refine List.ext_getElem? fun i => ?_
  rw [List.getElem?_take, List.getElem?_take]
  split_ifs with hi
  · rw [h i (hi.trans_le hes), scripted, List.length_take, min_eq_left (hi.trans_le hes).le,
      List.getD_eq_getElem?_getD, List.getElem?_eq_getElem (hi.trans_le hscript), Option.getD_some]
  · rfl

/-- A script whose steps are possible, and at whose end no operation is in progress. -/
theorem possible_of_script {script : List Event} {start s' : State}
    (hpossible : ∀ k < script.length, ∀ s, run (step host) start (script.take k) = some s →
      Possible host s (script.getD k .failed))
    (hscript : run (step host) start script = some s') (hdone : s'.pending = .nothing) (es : List Event)
    (s : State) (hfollows : Follows (scripted script) es) (hrun : run (step host) start es = some s)
    (hgoing : s.pending ≠ .nothing) : Possible host s (scripted script es) := by
  rcases Nat.lt_or_ge es.length script.length with hlt | hge
  · have hes : es = script.take es.length := by
      rw [← take_of_follows hfollows le_rfl hlt.le, List.take_length]
    exact hpossible _ hlt s (hes ▸ hrun)
  · have hes : es = script ++ es.drop script.length := by
      conv_lhs => rw [← List.take_append_drop script.length es, take_of_follows hfollows hge le_rfl,
        List.take_length]
    rw [hes, run_append, hscript, Option.bind_some] at hrun
    -- nothing is left to be done behind the script
    rcases hrest : es.drop script.length with _ | ⟨e, rest⟩
    · rw [hrest] at hrun
      cases hrun
      exact absurd hdone hgoing
    · rw [hrest] at hrun
      obtain ⟨s₁, h₁, -⟩ := run_cons hrun
      exact absurd hdone (pending_of_step h₁)

/-- The first read times out; the second connect request and the announce request are answered. -/
def secondTry : List Event :=
  [.sent 16 false, .failed, .sent 16 false,
    .received [0, 0, 0, 0, 0, 0, 0, 7, 0, 0, 0, 0, 0, 0, 0, 9] false, .sent 98 false,
    .received [0, 0, 0, 1, 0, 0, 0, 7, 0, 0, 7, 8, 0, 0, 0, 0, 0, 0, 0, 1, 127, 0, 0, 1, 26, 225] false]

/-- A tracker with two endpoints that answers at the second try. -/
theorem finishes_run_secondTry :
    (∃ es s, Follows (scripted secondTry) es ∧ run (step .littleEndian) (start 7 2) es = some s ∧
        s.requester.Answered ∧ s.pending = .nothing) ∧
      ∀ es s, run (step .littleEndian) (start 7 2) es = some s →
        s.connectSends ≤ 4 * 2 ∧ s.announceSends ≤ 12 * 2 ∧
          s.connectAttempts ≤ maxConnectAttempts ∧ s.announceAttempts ≤ maxAnnounceAttempts ∧
          es.length ≤ 48 * 2 ∧ (s.pending = .nothing ↔ s.requester.Answered) := by
  have hscript : run (step .littleEndian) (start 7 2) secondTry = some _ := rfl
  refine finishes_run .littleEndian 7 (by decide) (scripted secondTry)
    (possible_of_script (fun k hk s hrun => ?_) hscript rfl)
  change k < 6 at hk
  interval_cases k
  · obtain rfl := Option.some.inj hrun
    exact Or.inl rfl
  · obtain rfl := Option.some.inj hrun
    exact Or.inr (Or.inl rfl)
  · obtain rfl := Option.some.inj hrun
    exact Or.inl rfl
  · obtain rfl := Option.some.inj hrun
    exact Or.inl ⟨rfl, by decide⟩
  · obtain rfl := Option.some.inj hrun
    exact Or.inr rfl
  · obtain rfl := Option.some.inj hrun
    refine Or.inr ⟨rfl, by decide, fun data hdata => ?_⟩
    obtain rfl := AnnounceReply.accepted.inj (Option.some.inj hdata)
    exact staysInside_iff.mpr ⟨1, rfl⟩

end CppTorrent.Tracker.UdpRetries
