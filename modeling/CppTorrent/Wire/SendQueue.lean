import CppTorrent.Lib.Runs
import CppTorrent.Wire.Message

/-! # Sends on one socket

`TCPSocket::Send` posts a handler to the strand of the socket, and the handler starts an `async_write`.
That offers its buffer to the socket in a write-some operation, and its completion handler offers what
was not taken in another one, until nothing is left. The operations of a socket are served in the order
they were issued.

Nothing keeps a second message from being started before the first is done. Its operation then stands
in front of the one that the rest of the first message will be offered in. `run_inOrder` says that the
bytes on the wire are the messages in the order of their handlers as long as a write step takes less
than it is offered only while no other message waits, and `send_interleaved` that a message cut short
with another one behind it is torn apart. -/

namespace CppTorrent.Wire.SendQueue

open CppTorrent.Lib.Runs CppTorrent.Wire.Message

/-- A handler queued in the strand. -/
inductive Handler where
  /-- the handler that `Send` posts -/
  | write (buffer : List UInt8)
  /-- the completion handler of a write-some operation, with what it has left -/
  | written (rest : List UInt8)
  deriving DecidableEq

/-- The bytes a handler will offer to the socket. -/
def Handler.bytes : Handler → List UInt8
  | .write buffer => buffer
  | .written rest => rest

/-- The strand, the socket and what has gone out. -/
structure State where
  strand : List Handler
  /-- the write-some operations issued and not completed -/
  pending : List (List UInt8)
  wire : List UInt8
  /-- the buffers in the order their handlers were posted -/
  posted : List (List UInt8)
  deriving DecidableEq

/-- What can happen next. -/
inductive Event where
  /-- `Send` is called -/
  | send (buffer : List UInt8)
  /-- the strand runs its first handler -/
  | run
  /-- the operating system takes bytes of the first operation -/
  | accept (taken : ℕ)

/-- One step. -/
def step (s : State) : Event → Option State
  | .send buffer =>
    some { s with strand := s.strand ++ [.write buffer], posted := s.posted ++ [buffer] }
  | .run =>
    match s.strand with
    | [] => none
    | .write buffer :: strand => some { s with strand := strand, pending := s.pending ++ [buffer] }
    | .written rest :: strand =>
      if rest = [] then some { s with strand := strand }
      else some { s with strand := strand, pending := s.pending ++ [rest] }
  | .accept taken =>
    match s.pending with
    | [] => none
    | offered :: pending =>
      if taken ≤ offered.length ∧ (taken = 0 → offered = []) then
        some { s with
          strand := s.strand ++ [.written (offered.drop taken)]
          pending := pending
          wire := s.wire ++ offered.take taken }
      else none

/-- No message has been sent. -/
def init : State := ⟨[], [], [], []⟩

/-- Nothing is left to be done. -/
def Drained (s : State) : Prop := s.strand = [] ∧ s.pending = []

/-- The bytes on the wire are those of the messages, in the order of their handlers and each in one
piece; and all of them, when nothing is left to be done. -/
def InOrder (s : State) : Prop :=
  s.wire <+: s.posted.flatten ∧ (Drained s → s.wire = s.posted.flatten)

/-- No other message than the one being served has bytes left. -/
def Alone (s : State) : Prop :=
  s.pending.tail.flatten = [] ∧ s.strand.flatMap Handler.bytes = []

/-- The condition on a step: a write step takes less than it is offered only while no other message
waits. -/
def Whole (s : State) : Event → Prop
  | .accept taken => ∀ offered ∈ s.pending.head?, taken < offered.length → Alone s
  | _ => True

/-! ### What is on its way -/

/-- The bytes that have gone out, then those offered, then those that will be. -/
def onTheWay (s : State) : List UInt8 :=
  s.wire ++ (s.pending.flatten ++ s.strand.flatMap Handler.bytes)

/-- The bytes on their way are the messages in the order of their handlers. -/
def Inv (s : State) : Prop := onTheWay s = s.posted.flatten

theorem inOrder_of_inv {s : State} (h : Inv s) : InOrder s := by
  refine ⟨⟨_, h⟩, fun hd => ?_⟩
  have hrest : s.pending.flatten ++ s.strand.flatMap Handler.bytes = [] := by
    rw [hd.1, hd.2]
    rfl
  unfold Inv onTheWay at h
  rw [← h, hrest, List.append_nil]

theorem inv_send {s s' : State} {buffer : List UInt8} (h : Inv s)
    (hs : step s (.send buffer) = some s') : Inv s' := by
  cases hs
  unfold Inv onTheWay at h ⊢
  simp only [List.flatMap_append, List.flatMap_cons, List.flatMap_nil, List.flatten_append,
    List.flatten_singleton, Handler.bytes, List.append_nil]
  rw [← h, List.append_assoc, List.append_assoc]

/-- The bytes of the first handler are offered behind those offered before. -/
theorem inv_run {s s' : State} (h : Inv s) (hs : step s .run = some s') : Inv s' := by
  obtain ⟨strand, pending, wire, posted⟩ := s
  rcases strand with _ | ⟨buffer | rest, strand⟩
  · cases hs
  · cases hs
    unfold Inv onTheWay at h ⊢
    simpa [Handler.bytes] using h
  · simp only [step] at hs
    split_ifs at hs with hrest
    · cases hs
      unfold Inv onTheWay at h ⊢
      simpa [Handler.bytes, hrest] using h
    · cases hs
      unfold Inv onTheWay at h ⊢
      simpa [Handler.bytes] using h

/-- What is left of an operation goes to the end of the strand. That is where it belongs if nothing is
left of it or no other message waits. -/
theorem inv_accept {s s' : State} {taken : ℕ} (h : Inv s) (hwhole : Whole s (.accept taken))
    (hs : step s (.accept taken) = some s') : Inv s' := by
  obtain ⟨strand, pending, wire, posted⟩ := s
  rcases pending with _ | ⟨offered, pending⟩
  · cases hs
  simp only [step] at hs
  split_ifs at hs with htaken
  cases hs
  have hmove : pending.flatten ++ (strand.flatMap Handler.bytes ++ offered.drop taken) =
      offered.drop taken ++ (pending.flatten ++ strand.flatMap Handler.bytes) := by
    rcases Nat.lt_or_ge taken offered.length with hlt | hge
    · have hpending : pending.flatten = [] := (hwhole offered rfl hlt).1
      have hstrand : strand.flatMap Handler.bytes = [] := (hwhole offered rfl hlt).2
      rw [hpending, hstrand]
      simp
    · rw [List.drop_of_length_le hge, List.append_nil, List.nil_append]
  unfold Inv onTheWay at h ⊢
  simp only [List.flatten_cons, List.flatMap_append, List.flatMap_cons, List.flatMap_nil,
    Handler.bytes, List.append_nil] at h ⊢
  rw [hmove, ← h, List.append_assoc, ← List.append_assoc (offered.take taken),
    List.take_append_drop, List.append_assoc]

theorem inv_init : Inv init := rfl

theorem inv_step (s : State) (e : Event) (s' : State) (h : Inv s) (hwhole : Whole s e)
    (hs : step s e = some s') : Inv s' := by
  cases e with
  | send buffer => exact inv_send h hs
  | run => exact inv_run h hs
  | accept taken => exact inv_accept h hwhole hs

/-- **Messages are written one after the other** in every run in which a write step takes less than it
is offered only while no other message waits. -/
theorem run_inOrder {es : List Event} (hwhole : Along step Whole init es) {s : State}
    (hs : run step init es = some s) : InOrder s :=
  inOrder_of_inv (invariant_of_run Inv Whole inv_step inv_init hwhole hs)

/-- A second message is sent when the first has been cut short: it is posted behind what is left of
it. -/
theorem run_inOrder_two :
    InOrder ⟨[], [[0, 0, 0, 1, 2]], [0, 0, 0, 1, 1], [[0, 0, 0, 1, 1], [0, 0, 0, 1, 2]]⟩ := by
  have hwhole : Along step Whole init [.send (sendUnchoke .littleEndian), .run, .accept 1,
      .send (sendInterested .littleEndian), .run, .run, .accept 4, .run] :=
    along_cons rfl trivial <| along_cons rfl trivial <|
      along_cons rfl (fun _ _ _ => ⟨rfl, rfl⟩) <| along_cons rfl trivial <| along_cons rfl trivial <|
      along_cons rfl trivial <|
      along_cons rfl (fun offered ho hlt => by cases ho; exact absurd hlt (by decide)) <|
      along_cons rfl trivial trivial
  exact run_inOrder hwhole (by decide)

/-- **A message cut short with another one behind it is torn apart**: the second stands after the
first byte of the first. -/
theorem send_interleaved :
    ∃ s, run step init [.send (sendUnchoke .littleEndian), .send (sendInterested .littleEndian), .run,
        .run, .accept 1, .accept 5] = some s ∧ ¬ InOrder s := by
  refine ⟨⟨[.written [0, 0, 1, 1], .written []], [], [0, 0, 0, 0, 1, 2],
    [[0, 0, 0, 1, 1], [0, 0, 0, 1, 2]]⟩, by decide, fun h => ?_⟩
  exact absurd h.1 (by decide)

end CppTorrent.Wire.SendQueue
