import CppTorrent.Lib.BigEndian
import CppTorrent.Lib.Runs
import CppTorrent.Lib.Strands
import CppTorrent.Swarm.Lifecycle

/-! # An outgoing client on its strand

Everything that a client does is done by handlers on its strand: `Post` puts one there, and an operation
of the socket or of the resolver puts its completion there (`Handler`). The timer `timeout_` watches over
the connecting, the handshake and the messages. It is set by a handler that `Await` posts, and cancelled
by every connect and every read that ends. When it expires, its handler is put into the queue like any
other, and cancelling the timer then comes too late.

An operation that is cancelled ends at once, with an error. The handshake fits into the buffer of a new
connection, and so its write ends by itself: whether it succeeds is decided when it begins. Of the other
writes only the failures are of interest (`sendFailed`). What `handle_response` does to a client here is
that it disconnects or not (`Surroundings`).

A turn takes more from the queue than it adds to it (`weight_exec_lt`), so the strand comes to rest
unless something happens around it. -/

namespace CppTorrent.Swarm.TimedClient

open CppTorrent.Lib.BigEndian CppTorrent.Lib.Runs CppTorrent.Lib.Strands
open CppTorrent.Swarm.Lifecycle (maxConnectAttempts)

/-- `bittorrent_constants::handshake_length`. -/
def handshakeLength : ℕ := 68

/-- What one read of a client asks for. -/
inductive Segment where
  | handshake
  | header
  | body (size : ℕ)
  deriving DecidableEq

/-- The number of bytes a read asks for. -/
def Segment.size : Segment → ℕ
  | .handshake => handshakeLength
  | .header => 4
  | .body size => size

/-- The operation in progress. -/
inductive Op where
  | resolve
  | connect
  | read (part : Segment)
  deriving DecidableEq

/-- What happens when the timer expires: `cancel_operation`, and for the timer of `drop_timeout`
`Disconnect` after it. -/
inductive Expiry where
  | cancel
  | disconnect
  deriving DecidableEq

/-- The handlers of the strand. -/
inductive Handler where
  /-- the `do_resolve` that `Connect` posts -/
  | doResolve
  | resolved (ok : Bool)
  | connected (ok : Bool)
  /-- the `async_write` of the handshake that `Send` posts -/
  | write
  | written (ok : Bool)
  /-- the `async_read` that `Read` posts -/
  | read (part : Segment)
  /-- the bytes, or none if there is an error -/
  | readDone (part : Segment) (data : Option (List UInt8))
  /-- the handler that `Await` posts -/
  | await (expiry : Expiry)
  /-- the handler of the timer -/
  | expired (expiry : Expiry)
  /-- the handler that `Cancel` posts -/
  | cancel
  /-- the `error_callback` of a `send_msg` -/
  | sendFailed
  deriving DecidableEq

/-- `network::PeerClient`, outgoing. -/
structure Client where
  op : Option Op
  /-- `timeout_`, if it is set -/
  timeout : Option Expiry
  connectAttempts : ℕ
  isDisconnected : Bool
  /-- the master peer has it among its subscribers -/
  subscribed : Bool
  deriving DecidableEq

/-- What a handler depends on besides the client: whether a write of the handshake succeeds, and whether
`handle_response` disconnects. -/
structure Surroundings where
  sent : Bool
  disconnects : Bool
  deriving DecidableEq

/-! ### The handlers -/

/-- `PeerClient::check_handshake`, with the handshake of the master peer. -/
def checkHandshake (own data : List UInt8) : Bool :=
  data[0]? = some 0x13 ∧
    (data.drop 1).take 19 = "BitTorrent protocol".toList.map (fun c => c.toNat.toUInt8) ∧
    (data.drop 28).take 20 = (own.drop 28).take 20

/-- The condition of the callback in `send_handshake`. -/
def accepted (own data : List UInt8) : Bool :=
  handshakeLength ≤ data.length ∧ checkHandshake own data ∧
    (data.drop 28).take 20 = (own.drop 28).take 20

/-- `Impl::stop_await`. -/
def stopAwait (c : Client) : Client := { c with timeout := none }

/-- The completion of an operation that is cancelled. -/
def Op.aborted : Op → Handler
  | .resolve => .resolved false
  | .connect => .connected false
  | .read part => .readDone part none

/-- `Impl::cancel_operation`. -/
def cancelOperation (c : Client) : Client × List Handler :=
  ({ c with op := none, timeout := none }, (c.op.map Op.aborted).toList)

/-- `PeerClient::Disconnect`. -/
def disconnect (c : Client) : Client × List Handler :=
  if c.isDisconnected then (c, [])
  else ({ c with isDisconnected := true, subscribed := false }, [.cancel])

/-- `PeerClient::try_again_connect`. -/
def tryAgainConnect (c : Client) : Client × List Handler :=
  if c.isDisconnected then (c, [])
  -- the counter is not zero before: the client has been disconnected when it came to zero
  else if c.connectAttempts - 1 = 0 then disconnect { c with connectAttempts := 0 }
  else ({ c with connectAttempts := c.connectAttempts - 1 }, [.doResolve, .await .cancel])

/-- `PeerClient::do_read_header` and `PeerClient::do_read_body`. -/
def doRead (part : Segment) (c : Client) : List Handler :=
  if c.isDisconnected then [] else [.read part]

/-- `PeerClient::access`. -/
def access (c : Client) : Client × List Handler := (c, .await .disconnect :: doRead .header c)

/-- The callbacks of the reads. -/
def onRead (own : List UInt8) (around : Surroundings) (part : Segment) (data : List UInt8) (c : Client) :
    Client × List Handler :=
  match part with
  | .handshake => if accepted own data then access c else (c, [])
  | .header =>
    -- a keep-alive is the last thing that is read
    if numberBE data = 0 then (c, [.await .disconnect])
    else (c, .await .disconnect :: doRead (.body (numberBE data)) c)
  | .body _ =>
    let (c, posted) := if around.disconnects then disconnect c else (c, [])
    (c, posted ++ doRead .header c)

/-- The error callbacks of the reads. -/
def onReadError (part : Segment) (c : Client) : Client × List Handler :=
  match part with
  | .handshake => tryAgainConnect c
  | .header | .body _ => disconnect c

/-- A handler runs. -/
def exec (own : List UInt8) (around : Surroundings) (h : Handler) (c : Client) :
    Client × List Handler :=
  match h with
  | .doResolve => ({ c with op := some .resolve }, [])
  | .resolved true => ({ c with op := some .connect }, [])
  | .resolved false => tryAgainConnect c
  | .connected true => (stopAwait c, [.write])
  | .connected false => tryAgainConnect (stopAwait c)
  | .write => (c, [.written around.sent])
  | .written true => (c, [.read .handshake, .await .cancel])
  | .written false => tryAgainConnect c
  | .read part => ({ c with op := some (.read part) }, [])
  | .readDone part (some data) => onRead own around part data (stopAwait c)
  | .readDone part none => onReadError part (stopAwait c)
  | .await expiry => ({ c with timeout := some expiry }, [])
  | .expired .cancel | .cancel => cancelOperation c
  | .expired .disconnect =>
    let (c, aborted) := cancelOperation c
    let (c, posted) := disconnect c
    (c, aborted ++ posted)
  | .sendFailed => disconnect c

/-! ### Runs -/

/-- A client and its strand. -/
abbrev Peer : Type := Strand Client Handler

/-- The client after `Process`. -/
def process : Peer := ⟨⟨none, none, maxConnectAttempts, false, true⟩, [.doResolve, .await .cancel]⟩

/-- What can happen next. -/
inductive Event where
  /-- the next handler runs -/
  | run (around : Surroundings)
  /-- the resolver answers -/
  | resolve (ok : Bool)
  /-- the connection is there or has failed -/
  | connect (ok : Bool)
  /-- the bytes of a read have come -/
  | receive (data : List UInt8)
  /-- a read fails -/
  | readFails
  /-- the timer expires -/
  | expire
  /-- the send of a message fails -/
  | sendFails

/-- The operation in progress ends. -/
def complete (h : Handler) (s : Peer) : Peer :=
  Strand.post h { s with state := { s.state with op := none } }

/-- One step of the client and of what is around it. -/
def step (own : List UInt8) (s : Peer) : Event → Option Peer
  | .run around => turn (exec own) around s
  | .resolve ok => if s.state.op = some .resolve then some (complete (.resolved ok) s) else none
  | .connect ok => if s.state.op = some .connect then some (complete (.connected ok) s) else none
  | .receive data =>
    match s.state.op with
    | some (.read part) =>
      if data.length = part.size then some (complete (.readDone part (some data)) s) else none
    | _ => none
  | .readFails =>
    match s.state.op with
    | some (.read part) => some (complete (.readDone part none) s)
    | _ => none
  | .expire =>
    s.state.timeout.map fun expiry =>
      Strand.post (.expired expiry) { s with state := { s.state with timeout := none } }
  | .sendFails => some (Strand.post .sendFailed s)

/-! ### What the handlers do to the connection -/

/-- An operation of the connecting. -/
def Op.Connects : Op → Prop
  | .resolve | .connect | .read .handshake => True
  | _ => False

/-- A handler that disconnects the client. -/
def Handler.Kills : Handler → Prop
  | .expired .disconnect | .sendFailed => True
  | _ => False

/-- A handler of the connecting that retries it, goes on to the handshake or to `access`, or disconnects
the client. -/
def Handler.Leads (own : List UInt8) : Handler → Prop
  | .resolved ok => ok = false
  | .connected _ | .write | .written _ => True
  | .readDone .handshake data => ∀ bytes, data = some bytes → accepted own bytes = true
  | _ => False

section Disconnected

variable {own : List UInt8} {c : Client}

theorem isDisconnected_disconnect (c : Client) : (disconnect c).1.isDisconnected = true := by
  unfold disconnect
  split_ifs with h
  · exact h
  · rfl

theorem isDisconnected_tryAgainConnect (h : c.isDisconnected = true) :
    (tryAgainConnect c).1.isDisconnected = true := by
  unfold tryAgainConnect
  rw [if_pos h]
  exact h

/-- A client stays disconnected. -/
theorem isDisconnected_exec (around : Surroundings) (h : Handler) (hd : c.isDisconnected = true) :
    (exec own around h c).1.isDisconnected = true := by
  rcases h with _ | (_ | _) | (_ | _) | _ | (_ | _) | part | ⟨part, _ | data⟩ | expiry |
    (_ | _) | _ | _
  · exact hd
  · exact isDisconnected_tryAgainConnect hd
  · exact hd
  · exact isDisconnected_tryAgainConnect (c := stopAwait c) hd
  · exact hd
  · exact hd
  · exact isDisconnected_tryAgainConnect hd
  · exact hd
  · exact hd
  · rcases part with _ | _ | _
    · exact isDisconnected_tryAgainConnect (c := stopAwait c) hd
    · exact isDisconnected_disconnect _
    · exact isDisconnected_disconnect _
  · unfold exec onRead
    rcases part with _ | _ | _
    · dsimp only
      split_ifs <;> exact hd
    · dsimp only
      split_ifs <;> exact hd
    · dsimp only
      split_ifs
      · exact isDisconnected_disconnect _
      · exact hd
  · exact hd
  · exact hd
  · exact isDisconnected_disconnect _
  · exact hd
  · exact isDisconnected_disconnect _

theorem Handler.Kills.exec {h : Handler} (hk : h.Kills) (around : Surroundings) :
    (exec own around h c).1.isDisconnected = true := by
  rcases h with _ | _ | _ | _ | _ | _ | _ | _ | (_ | _) | _ | _
  all_goals first | exact hk.elim | exact isDisconnected_disconnect _

theorem Op.Connects.leads_aborted {op : Op} (h : op.Connects) : op.aborted.Leads own := by
  rcases op with _ | _ | _ | _ | _
  · rfl
  · trivial
  · exact fun _ h => absurd h (Option.some_ne_none _).symm
  all_goals exact h.elim

end Disconnected

/-! ### The strand comes to rest -/

/-- The turns that a handler stands for. -/
def Handler.weight : Handler → ℕ
  | .doResolve => 9
  | .resolved _ => 8
  | .connected _ => 7
  | .write => 6
  | .written _ => 5
  | .read _ => 3
  | .readDone _ (some _) => 5
  | .readDone _ none => 2
  | .await _ => 1
  | .expired .cancel => 1
  | .expired .disconnect => 3
  | .cancel => 1
  | .sendFailed => 2

/-- The turns that the completion of an operation stands for. -/
def Op.weight (op : Op) : ℕ := op.aborted.weight

/-- The turns that a client and a list of handlers stand for. -/
def weight (c : Client) (queue : List Handler) : ℕ :=
  10 * c.connectAttempts + (c.op.map Op.weight).getD 0 + (queue.map Handler.weight).sum

@[simp] theorem weight_nil (c : Client) :
    weight c [] = 10 * c.connectAttempts + (c.op.map Op.weight).getD 0 := rfl

@[simp] theorem weight_cons (c : Client) (h : Handler) (queue : List Handler) :
    weight c (h :: queue) = h.weight + weight c queue := by
  simp only [weight, List.map_cons, List.sum_cons]
  omega

theorem weight_append (c : Client) (queue queue' : List Handler) :
    weight c (queue ++ queue') = (queue.map Handler.weight).sum + weight c queue' := by
  simp only [weight, List.map_append, List.sum_append]
  omega

theorem weight_disconnect_le (c : Client) :
    weight (disconnect c).1 (disconnect c).2 ≤ weight c [] + 1 := by
  unfold disconnect
  split_ifs <;> simp [Handler.weight, Nat.add_comm]

theorem weight_cancelOperation (c : Client) :
    weight (cancelOperation c).1 (cancelOperation c).2 = weight c [] := by
  obtain ⟨_ | op, timeout, attempts, isDisconnected, subscribed⟩ := c <;>
    simp [cancelOperation, weight, Op.weight]

theorem weight_tryAgainConnect_le (c : Client) :
    weight (tryAgainConnect c).1 (tryAgainConnect c).2 ≤ weight c [] + 1 := by
  unfold tryAgainConnect
  split_ifs with hd h0
  · exact Nat.le_succ _
  · have hle := weight_disconnect_le { c with connectAttempts := 0 }
    rw [weight_nil] at hle ⊢
    dsimp only at hle
    omega
  · simp only [weight_cons, weight_nil, Handler.weight]
    omega

theorem weight_doRead_le (part : Segment) (c : Client) : weight c (doRead part c) ≤ weight c [] + 3 := by
  unfold doRead
  split_ifs
  · exact Nat.le_add_right _ _
  · rw [weight_cons, Nat.add_comm]
    exact le_rfl

theorem weight_onRead_le (own : List UInt8) (around : Surroundings) (part : Segment) (data : List UInt8)
    (c : Client) : weight (onRead own around part data c).1 (onRead own around part data c).2 ≤
      weight c [] + 4 := by
  have hread : ∀ part, weight c (.await .disconnect :: doRead part c) ≤ weight c [] + 4 := by
    intro part
    have hle := weight_doRead_le part c
    simp only [weight_cons, Handler.weight]
    omega
  rcases part with _ | _ | size
  · unfold onRead
    dsimp only
    split_ifs
    · exact hread .header
    · exact Nat.le_add_right _ _
  · unfold onRead
    dsimp only
    split_ifs
    · simp only [weight_cons, Handler.weight]
      omega
    · exact hread _
  · unfold onRead
    dsimp only
    split_ifs
    · have hle := weight_disconnect_le c
      have hle' := weight_doRead_le .header (disconnect c).1
      rw [weight_append]
      simp only [weight, List.map_nil, List.sum_nil] at hle hle' ⊢
      omega
    · have hle := weight_doRead_le .header c
      change weight c (doRead .header c) ≤ weight c [] + 4
      omega

/-- **A turn takes more from the queue than it adds to it.** -/
theorem weight_exec_lt (own : List UInt8) (around : Surroundings) (h : Handler) (c : Client) :
    weight (exec own around h c).1 (exec own around h c).2 < weight c [] + h.weight := by
  have hretry := weight_tryAgainConnect_le
  have hdisconnect := weight_disconnect_le
  have hcancel := weight_cancelOperation c
  -- the handlers that begin an operation
  have hbegin : ∀ op, weight { c with op := some op } [] ≤ weight c [] + op.weight := by
    intro op
    simp only [weight_nil, Option.map_some, Option.getD_some]
    omega
  cases h with
  | doResolve => exact (hbegin .resolve).trans_lt (Nat.lt_succ_self _)
  | resolved ok =>
    cases ok with
    | true => exact (hbegin .connect).trans_lt (Nat.lt_succ_self _)
    | false => exact (hretry c).trans_lt (by simp [Handler.weight])
  | connected ok =>
    cases ok with
    | true => simp [exec, stopAwait, weight, Handler.weight]
    | false => exact (hretry (stopAwait c)).trans_lt (by simp [Handler.weight, weight, stopAwait])
  | write => simp [exec, weight, Handler.weight]
  | written ok =>
    cases ok with
    | true => simp [exec, weight, Handler.weight]
    | false => exact (hretry c).trans_lt (by simp [Handler.weight])
  | read part => exact (hbegin (.read part)).trans_lt (Nat.lt_succ_self _)
  | readDone part data =>
    cases data with
    | some data =>
      exact (weight_onRead_le own around part data (stopAwait c)).trans_lt (Nat.lt_succ_self _)
    | none =>
      rcases part with _ | _ | _
      · exact (hretry (stopAwait c)).trans_lt (Nat.lt_succ_self _)
      · exact (hdisconnect (stopAwait c)).trans_lt (Nat.lt_succ_self _)
      · exact (hdisconnect (stopAwait c)).trans_lt (Nat.lt_succ_self _)
  | await expiry => exact Nat.lt_succ_self _
  | expired expiry =>
    cases expiry with
    | cancel => exact hcancel.trans_lt (Nat.lt_succ_self _)
    | disconnect =>
      have hle := hdisconnect (cancelOperation c).1
      simp only [exec, weight_append, Handler.weight]
      simp only [weight, List.map_nil, List.sum_nil] at hcancel hle ⊢
      omega
  | cancel => exact hcancel.trans_lt (Nat.lt_succ_self _)
  | sendFailed => exact (hdisconnect c).trans_lt (Nat.lt_succ_self _)

theorem weight_turn_lt {own : List UInt8} {around : Surroundings} {s s' : Peer}
    (h : turn (exec own) around s = some s') : weight s'.state s'.queue < weight s.state s.queue := by
  obtain ⟨first, rest, hq, hstate, hqueue⟩ := exists_of_turn h
  have hlt := weight_exec_lt own around first s.state
  rw [hq, hstate, hqueue, weight_append, weight_cons]
  have hrest : weight s.state rest = (rest.map Handler.weight).sum + weight s.state [] := by
    rw [← weight_append, List.append_nil]
  omega

end CppTorrent.Swarm.TimedClient
