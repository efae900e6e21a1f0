import CppTorrent.Swarm.TimedClient

/-! # The deadline of an outgoing client

`Supervised` says that the timer of a client is set, or that the handlers in the queue set it, or
disconnect the client: it is not left to a remote that says nothing more.

`Shape` lists what can be queued in the meantime. The connecting sets the timer behind the beginning of
each of its operations, and so an expiry finds the operation in progress and cancels it. The messages
have a timer of their own, set when a header has come. `supervised_run` proves that clients are
supervised in the runs in which the answer to the handshake is accepted, a message body makes
`handle_response` disconnect, and the resolver does not succeed between the expiry of the timer and its
handler.

In the other runs they are not: an answer that is not accepted leaves nothing behind
(`unsupervised_rejected`), after a message body the next header is read without a deadline
(`unsupervised_body`), and an expiry that is served late stops the timer of an operation that has not
begun (`unsupervised_late`). -/

namespace CppTorrent.Swarm.Deadline

open CppTorrent.Lib.BigEndian CppTorrent.Lib.Runs CppTorrent.Lib.Strands
open CppTorrent.Swarm.TimedClient

/-- If the client is subscribed and not disconnected, its timer is set. -/
def Guarded (c : Client) : Prop :=
  c.subscribed = true → c.isDisconnected = false → c.timeout.isSome

/-- The timer is set where it has to be, or the queued handlers see to it: they set it, retry the
connection with a timer, or disconnect the client. -/
def Supervised (own : List UInt8) (s : Peer) : Prop := Inevitable (exec own) Guarded s

/-- The answer to the handshake is accepted, a message body makes `handle_response` disconnect, and the
resolver does not succeed while the handler of an expired timer waits in the queue. -/
def Proper (own : List UInt8) (s : Peer) : Event → Prop
  | .run around => ∀ size data, s.queue.head? = some (.readDone (.body size) (some data)) →
      around.disconnects = true
  | .resolve true => Handler.expired .cancel ∉ s.queue
  | .receive data => s.state.op = some (.read .handshake) → accepted own data = true
  | _ => True

/-! ### The invariant -/

/-- A number of expiries of the timer of the connecting. -/
def expiries (a : ℕ) : List Handler := List.replicate a (.expired .cancel)

/-- What can be queued for a client that is not disconnected, if no handler waits that disconnects it.
The first seven cases are the connecting, in which expiries of its timer wait among the others. -/
inductive Shape (own : List UInt8) (c : Client) : List Handler → Prop
  /-- an operation is to begin, then the timer is set -/
  | start {h : Handler} (hh : h = .doResolve ∨ h = .read .handshake) (a b : ℕ) (hop : c.op = none)
      (ht : c.timeout ≠ some .disconnect) : Shape own c (expiries a ++ h :: .await .cancel :: expiries b)
  /-- the operation is in progress, the timer is to be set -/
  | arm {op : Op} (hconn : op.Connects) (b : ℕ) (hop : c.op = some op)
      (ht : c.timeout ≠ some .disconnect) : Shape own c (.await .cancel :: expiries b)
  | armLeads {h : Handler} (hh : h.Leads own) (a b : ℕ) (hop : c.op = none)
      (ht : c.timeout ≠ some .disconnect) :
      Shape own c (.await .cancel :: (expiries a ++ h :: expiries b))
  | armResolved (b : ℕ) (hop : c.op = none) (ht : c.timeout ≠ some .disconnect) :
      Shape own c (.await .cancel :: .resolved true :: expiries b)
  /-- the timer is set, or has expired behind the beginning of the operation -/
  | wait {op : Op} (hconn : op.Connects) (a : ℕ) (hop : c.op = some op)
      (ht : c.timeout ≠ some .disconnect) (hw : c.timeout = some .cancel ∨ 0 < a) :
      Shape own c (expiries a)
  | resolved (b : ℕ) (hop : c.op = none) (ht : c.timeout ≠ some .disconnect)
      (hw : c.timeout = some .cancel ∨ 0 < b) : Shape own c (.resolved true :: expiries b)
  | leads {h : Handler} (hh : h.Leads own) (a b : ℕ) (hop : c.op = none)
      (ht : c.timeout ≠ some .disconnect) : Shape own c (expiries a ++ h :: expiries b)
  /-- the timer of the messages is to be set, then a read is to begin -/
  | armRead {part : Segment} (hpart : part ≠ .handshake) (a : ℕ) (hop : c.op = none)
      (ht : c.timeout ≠ some .cancel) : Shape own c (expiries a ++ [.await .disconnect, .read part])
  | startRead {part : Segment} (hpart : part ≠ .handshake) (hop : c.op = none)
      (ht : c.timeout = some .disconnect) : Shape own c [.read part]
  | waitRead {part : Segment} (hpart : part ≠ .handshake) (hop : c.op = some (.read part))
      (ht : c.timeout = some .disconnect) : Shape own c []
  | readDone {part : Segment} (hpart : part ≠ .handshake) (data : Option (List UInt8)) (hop : c.op = none)
      (ht : c.timeout = some .disconnect) : Shape own c [.readDone part data]
  /-- a keep-alive has come, and nothing more is read -/
  | keepAlive (hop : c.op = none) (ht : c.timeout ≠ some .cancel) : Shape own c [.await .disconnect]
  | idle (hop : c.op = none) (ht : c.timeout = some .disconnect) : Shape own c []

/-- **The invariant of a client and its strand.** -/
def Inv (own : List UInt8) (s : Peer) : Prop :=
  s.state.isDisconnected = true ∨ (∃ h ∈ s.queue, h.Kills) ∨ Shape own s.state s.queue

section Inv

variable {own : List UInt8} {c : Client}

theorem expiries_snoc (a : ℕ) : expiries a ++ [.expired .cancel] = expiries (a + 1) :=
  List.replicate_succ'.symm

theorem Shape.inv {queue : List Handler} (h : Shape own c queue) : Inv own ⟨c, queue⟩ :=
  Or.inr (Or.inr h)

/-- With an empty queue the timer is set. -/
theorem Shape.guarded_of_nil {queue : List Handler} (h : Shape own c queue) (hq : queue = []) :
    c.timeout.isSome := by
  cases h with
  | start | leads | armRead => simp at hq
  | arm | armLeads | armResolved | resolved | startRead | readDone | keepAlive => simp at hq
  | wait hconn a hop ht hw =>
    rcases hw with hw | hw
    · rw [hw]
      rfl
    · obtain ⟨a, rfl⟩ := Nat.exists_eq_succ_of_ne_zero hw.ne'
      exact absurd hq (List.cons_ne_nil _ _)
  | waitRead hpart hop ht => rw [ht]; rfl
  | idle hop ht => rw [ht]; rfl

theorem Inv.guarded_of_nil {s : Peer} (h : Inv own s) (hq : s.queue = []) : Guarded s.state := by
  intro _ hd
  rcases h with h | ⟨k, hk, -⟩ | h
  · exact absurd (hd.symm.trans h) Bool.false_ne_true
  · rw [hq] at hk
    exact absurd hk List.not_mem_nil
  · exact h.guarded_of_nil hq

/-- A retry begins the connecting again, with a timer. -/
theorem inv_tryAgainConnect (hop : c.op = none) (ht : c.timeout ≠ some .disconnect) (b : ℕ) :
    Inv own ⟨(tryAgainConnect c).1, expiries b ++ (tryAgainConnect c).2⟩ := by
  unfold tryAgainConnect
  split_ifs with hd h0
  · exact Or.inl hd
  · exact Or.inl (isDisconnected_disconnect _)
  · exact Shape.inv (Shape.start (Or.inl rfl) b 0 hop ht)

/-- A completion of the connecting. -/
theorem inv_exec_leads {h : Handler} (hh : h.Leads own) (around : Surroundings)
    (hop : c.op = none) (ht : c.timeout ≠ some .disconnect) (hd : c.isDisconnected = false) (b : ℕ) :
    Inv own ⟨(exec own around h c).1, expiries b ++ (exec own around h c).2⟩ := by
  have hstop : (stopAwait c).timeout ≠ some .disconnect := by simp [stopAwait]
  rcases h with _ | (_ | _) | (_ | _) | _ | (_ | _) | part | ⟨_ | _ | _, _ | data⟩ | _ | _ | _ | _
  · exact hh.elim
  · exact inv_tryAgainConnect hop ht b
  · exact absurd (show true = false from hh) (by decide)
  · exact inv_tryAgainConnect (c := stopAwait c) hop hstop b
  · exact Shape.inv (Shape.leads (h := .write) trivial b 0 hop hstop)
  · exact Shape.inv (Shape.leads (h := .written around.sent) trivial b 0 hop ht)
  · exact inv_tryAgainConnect hop ht b
  · exact Shape.inv (Shape.start (h := .read .handshake) (Or.inr rfl) b 0 hop ht)
  · exact hh.elim
  · exact inv_tryAgainConnect (c := stopAwait c) hop hstop b
  · -- the answer is accepted
    have hread : exec own around (.readDone .handshake (some data)) c =
        (stopAwait c, [.await .disconnect, .read .header]) := by
      have hd' : (stopAwait c).isDisconnected = false := hd
      simp [exec, onRead, hh data rfl, access, doRead, hd']
    rw [hread]
    exact Shape.inv (Shape.armRead Segment.noConfusion b hop (by simp [stopAwait]))
  all_goals exact hh.elim

/-- An expiry of the timer of the connecting, when no operation is in progress. -/
theorem exec_expired (around : Surroundings) (hop : c.op = none) :
    exec own around (.expired .cancel) c = (stopAwait c, []) := by
  simp [exec, cancelOperation, stopAwait, hop]

/-- The condition on a message body. -/
def Dropped (around : Surroundings) (h : Handler) : Prop :=
  ∀ size data, h = .readDone (.body size) (some data) → around.disconnects = true

/-- The completion of a read of a message. -/
theorem inv_exec_readDone {part : Segment} (hpart : part ≠ .handshake) (data : Option (List UInt8))
    (around : Surroundings) (hop : c.op = none) (hd : c.isDisconnected = false)
    (hdrop : Dropped around (.readDone part data)) :
    Inv own ⟨(exec own around (.readDone part data) c).1,
      [] ++ (exec own around (.readDone part data) c).2⟩ := by
  have hd' : (stopAwait c).isDisconnected = false := hd
  have ht : (stopAwait c).timeout ≠ some .cancel := by simp [stopAwait]
  rcases part with _ | _ | size
  · exact absurd rfl hpart
  · cases data with
    | none => exact Or.inl (isDisconnected_disconnect _)
    | some data =>
      by_cases hzero : numberBE data = 0
      · have hexec : exec own around (.readDone .header (some data)) c =
            (stopAwait c, [.await .disconnect]) := by
          simp [exec, onRead, hzero]
        rw [hexec]
        exact Shape.inv (Shape.keepAlive hop ht)
      · have hexec : exec own around (.readDone .header (some data)) c =
            (stopAwait c, [.await .disconnect, .read (.body (numberBE data))]) := by
          simp [exec, onRead, hzero, doRead, hd']
        rw [hexec]
        exact Shape.inv (Shape.armRead Segment.noConfusion 0 hop ht)
  · cases data with
    | none => exact Or.inl (isDisconnected_disconnect _)
    | some data =>
      left
      simp only [exec, onRead, hdrop size data rfl, if_true]
      exact isDisconnected_disconnect _

/-- **A turn keeps the shape of the queue**, or the client is disconnected. -/
theorem Shape.inv_exec {queue rest : List Handler} {h : Handler} (hs : Shape own c queue)
    (hq : queue = h :: rest) (hd : c.isDisconnected = false) (around : Surroundings)
    (hdrop : Dropped around h ∨ ¬ Guarded c) :
    Inv own ⟨(exec own around h c).1, rest ++ (exec own around h c).2⟩ := by
  have hstop : ∀ e, (stopAwait c).timeout ≠ some e := by simp [stopAwait]
  cases hs with
  | start hh a b hop ht =>
    rcases a with _ | a
    · obtain ⟨rfl, rfl⟩ := List.cons.inj hq
      rcases hh with rfl | rfl
      · rw [exec, List.append_nil]
        exact Shape.inv (Shape.arm (show Op.resolve.Connects from trivial) b rfl ht)
      · rw [exec, List.append_nil]
        exact Shape.inv (Shape.arm (show (Op.read .handshake).Connects from trivial) b rfl ht)
    · obtain ⟨rfl, rfl⟩ := List.cons.inj hq
      rw [exec_expired around hop, List.append_nil]
      exact Shape.inv (Shape.start hh a b hop (hstop _))
  | arm hconn b hop ht =>
    obtain ⟨rfl, rfl⟩ := List.cons.inj hq
    rw [exec, List.append_nil]
    exact Shape.inv (Shape.wait hconn b hop (by simp) (Or.inl rfl))
  | armLeads hh a b hop ht =>
    obtain ⟨rfl, rfl⟩ := List.cons.inj hq
    rw [exec, List.append_nil]
    exact Shape.inv (Shape.leads hh a b hop (by simp))
  | armResolved b hop ht =>
    obtain ⟨rfl, rfl⟩ := List.cons.inj hq
    rw [exec, List.append_nil]
    exact Shape.inv (Shape.resolved b hop (by simp) (Or.inl rfl))
  | @wait op hconn a hop ht hw =>
    rcases a with _ | a
    · exact absurd hq (List.cons_ne_nil _ _).symm
    · -- the operation is cancelled
      obtain ⟨rfl, rfl⟩ := List.cons.inj hq
      have hexec : exec own around (.expired .cancel) c =
          ({ c with op := none, timeout := none }, [op.aborted]) := by
        simp [exec, cancelOperation, hop]
      rw [hexec]
      exact Shape.inv (Shape.leads hconn.leads_aborted a 0 rfl (by simp))
  | resolved b hop ht hw =>
    obtain ⟨rfl, rfl⟩ := List.cons.inj hq
    rw [exec, List.append_nil]
    exact Shape.inv (Shape.wait (show Op.connect.Connects from trivial) b rfl ht hw)
  | leads hh a b hop ht =>
    rcases a with _ | a
    · obtain ⟨rfl, rfl⟩ := List.cons.inj hq
      exact inv_exec_leads hh around hop ht hd b
    · obtain ⟨rfl, rfl⟩ := List.cons.inj hq
      rw [exec_expired around hop, List.append_nil]
      exact Shape.inv (Shape.leads hh a b hop (hstop _))
  | armRead hpart a hop ht =>
    rcases a with _ | a
    · obtain ⟨rfl, rfl⟩ := List.cons.inj hq
      rw [exec, List.append_nil]
      exact Shape.inv (Shape.startRead hpart hop rfl)
    · obtain ⟨rfl, rfl⟩ := List.cons.inj hq
      rw [exec_expired around hop, List.append_nil]
      exact Shape.inv (Shape.armRead hpart a hop (hstop _))
  | startRead hpart hop ht =>
    obtain ⟨rfl, rfl⟩ := List.cons.inj hq
    rw [exec, List.append_nil]
    exact Shape.inv (Shape.waitRead hpart rfl ht)
  | waitRead => exact absurd hq (List.cons_ne_nil _ _).symm
  | readDone hpart data hop ht =>
    obtain ⟨rfl, rfl⟩ := List.cons.inj hq
    rcases hdrop with hdrop | hnot
    · exact inv_exec_readDone hpart data around hop hd hdrop
    · exact absurd (fun _ _ => by rw [ht]; rfl) hnot
  | keepAlive hop ht =>
    obtain ⟨rfl, rfl⟩ := List.cons.inj hq
    exact Shape.inv (Shape.idle hop rfl)
  | idle => exact absurd hq (List.cons_ne_nil _ _).symm

/-- **A turn keeps the invariant**, if a message body makes `handle_response` disconnect. -/
theorem inv_turn {around : Surroundings} {s s' : Peer} (hs : Inv own s)
    (hdrop : Proper own s (.run around) ∨ ¬ Guarded s.state)
    (h : turn (exec own) around s = some s') : Inv own s' := by
  obtain ⟨first, rest, hq, hstate, hqueue⟩ := exists_of_turn h
  have hs' : s' = ⟨(exec own around first s.state).1, rest ++ (exec own around first s.state).2⟩ := by
    rw [← hstate, ← hqueue]
  rw [hs']
  rcases hs with hd | ⟨k, hk, hkills⟩ | hshape
  · exact Or.inl (isDisconnected_exec around first hd)
  · rw [hq] at hk
    rcases List.mem_cons.mp hk with rfl | hk
    · exact Or.inl (hkills.exec around)
    · exact Or.inr (Or.inl ⟨k, List.mem_append_left _ hk, hkills⟩)
  · cases hd : s.state.isDisconnected with
    | true => exact Or.inl (isDisconnected_exec around first hd)
    | false =>
      refine hshape.inv_exec hq hd around (hdrop.imp_left fun hdrop size data heq => ?_)
      exact hdrop size data (by rw [hq, heq]; rfl)

/-- **The invariant makes sure of the timer.** -/
theorem Inv.supervised {s : Peer} (h : Inv own s) : Supervised own s :=
  Inevitable.of_invariant (Inv own) (fun s => weight s.state s.queue)
    (fun _ _ _ ht => weight_turn_lt ht) (fun _ _ _ hs hnot ht => inv_turn hs (Or.inr hnot) ht)
    (fun _ hs hq => hs.guarded_of_nil hq) h

/-- What is queued while an operation is in progress. -/
theorem Shape.of_op {queue : List Handler} {op : Op} (hs : Shape own c queue) (hop : c.op = some op) :
    (op.Connects ∧ c.timeout ≠ some .disconnect ∧ ((∃ b, queue = .await .cancel :: expiries b) ∨
      ∃ a, queue = expiries a ∧ (c.timeout = some .cancel ∨ 0 < a))) ∨
    (∃ part, part ≠ .handshake ∧ op = .read part ∧ queue = [] ∧ c.timeout = some .disconnect) := by
  cases hs with
  | arm hconn b hop' ht =>
    obtain rfl := Option.some.inj (hop.symm.trans hop')
    exact Or.inl ⟨hconn, ht, Or.inl ⟨b, rfl⟩⟩
  | wait hconn a hop' ht hw =>
    obtain rfl := Option.some.inj (hop.symm.trans hop')
    exact Or.inl ⟨hconn, ht, Or.inr ⟨a, rfl, hw⟩⟩
  | waitRead hpart hop' ht =>
    exact Or.inr ⟨_, hpart, Option.some.inj (hop.symm.trans hop'), rfl, ht⟩
  | start _ _ _ hop' | armLeads _ _ _ hop' | leads _ _ _ hop' | armRead _ _ hop' | armResolved _ hop'
  | resolved _ hop' | startRead _ hop' | readDone _ _ hop' | keepAlive hop' | idle hop' =>
    exact absurd (hop.symm.trans hop') (Option.some_ne_none _)

/-- A new handler: a disconnected client stays so, and a handler that disconnects it stays in the
queue. -/
theorem Inv.post {s : Peer} (hs : Inv own s) (c' : Client) (h : Handler)
    (hd : c'.isDisconnected = s.state.isDisconnected)
    (hshape : Shape own s.state s.queue → Inv own (Strand.post h { s with state := c' })) :
    Inv own (Strand.post h { s with state := c' }) := by
  rcases hs with hd' | ⟨k, hk, hkills⟩ | hs
  · exact Or.inl (hd.trans hd')
  · exact Or.inr (Or.inl ⟨k, List.mem_append_left _ hk, hkills⟩)
  · exact hshape hs

/-- A handler that disconnects the client comes into the queue. -/
theorem inv_post_kills (s : Peer) {h : Handler} (hk : h.Kills) : Inv own (Strand.post h s) :=
  Or.inr (Or.inl ⟨h, List.mem_append_right _ List.mem_cons_self, hk⟩)

/-- An operation of the connecting ends. -/
theorem Inv.complete_leads {s : Peer} (hs : Inv own s) {op : Op} (hop : s.state.op = some op)
    (hconn : op.Connects) {h : Handler} (hh : h.Leads own) : Inv own (complete h s) := by
  refine hs.post _ h rfl fun hshape => Shape.inv ?_
  obtain ⟨c, queue⟩ := s
  rcases hshape.of_op hop with ⟨-, ht, ⟨b, rfl⟩ | ⟨a, rfl, -⟩⟩ | ⟨part, hpart, rfl, -⟩
  · exact Shape.armLeads hh b 0 rfl ht
  · exact Shape.leads hh a 0 rfl ht
  · rcases part with _ | _ | _
    · exact absurd rfl hpart
    · exact hconn.elim
    · exact hconn.elim

/-- The resolver succeeds. -/
theorem Inv.complete_resolved {s : Peer} (hs : Inv own s) (hop : s.state.op = some .resolve)
    (hnot : Handler.expired .cancel ∉ s.queue) : Inv own (complete (.resolved true) s) := by
  refine hs.post _ _ rfl fun hshape => Shape.inv ?_
  obtain ⟨c, queue⟩ := s
  rcases hshape.of_op hop with ⟨-, ht, ⟨b, rfl⟩ | ⟨a, rfl, hw⟩⟩ | ⟨part, -, heq, -⟩
  · obtain rfl : b = 0 := by simpa [expiries] using hnot
    exact Shape.armResolved 0 rfl ht
  · obtain rfl : a = 0 := by simpa [expiries] using hnot
    exact Shape.resolved 0 rfl ht hw
  · exact absurd heq Op.noConfusion

/-- A read of a message ends. -/
theorem Inv.complete_readDone {s : Peer} (hs : Inv own s) {part : Segment}
    (hop : s.state.op = some (.read part)) (hpart : part ≠ .handshake) (data : Option (List UInt8)) :
    Inv own (complete (.readDone part data) s) := by
  refine hs.post _ _ rfl fun hshape => Shape.inv ?_
  obtain ⟨c, queue⟩ := s
  rcases hshape.of_op hop with ⟨hconn, -⟩ | ⟨_, -, -, rfl, ht⟩
  · rcases part with _ | _ | _
    · exact absurd rfl hpart
    · exact hconn.elim
    · exact hconn.elim
  · exact Shape.readDone hpart data rfl ht

/-- The timer of the connecting expires: its handler is the last one. -/
theorem Inv.expire {s : Peer} (hs : Inv own s) (ht : s.state.timeout = some .cancel) :
    Inv own (Strand.post (.expired .cancel) { s with state := { s.state with timeout := none } }) := by
  refine hs.post _ _ rfl fun hshape => Shape.inv ?_
  obtain ⟨c, queue⟩ := s
  have hnone : (none : Option Expiry) ≠ some .disconnect := (Option.some_ne_none _).symm
  have hne : c.timeout ≠ some .disconnect := by
    rw [ht]
    decide
  cases hshape with
  | start hh a b hop =>
    have hnext : Shape own { c with timeout := none } _ := Shape.start hh a (b + 1) hop hnone
    simpa [Strand.post, expiries_snoc] using hnext
  | arm hconn b hop =>
    have hnext : Shape own { c with timeout := none } _ := Shape.arm hconn (b + 1) hop hnone
    simpa [Strand.post, expiries_snoc] using hnext
  | armLeads hh a b hop =>
    have hnext : Shape own { c with timeout := none } _ := Shape.armLeads hh a (b + 1) hop hnone
    simpa [Strand.post, expiries_snoc] using hnext
  | armResolved b hop =>
    have hnext : Shape own { c with timeout := none } _ := Shape.armResolved (b + 1) hop hnone
    simpa [Strand.post, expiries_snoc] using hnext
  | wait hconn a hop =>
    have hnext : Shape own { c with timeout := none } _ := Shape.wait hconn (a + 1) hop hnone
      (Or.inr (Nat.succ_pos a))
    rw [← expiries_snoc] at hnext
    exact hnext
  | resolved b hop =>
    have hnext : Shape own { c with timeout := none } _ := Shape.resolved (b + 1) hop hnone
      (Or.inr (Nat.succ_pos b))
    simpa [Strand.post, expiries_snoc] using hnext
  | leads hh a b hop =>
    have hnext : Shape own { c with timeout := none } _ := Shape.leads hh a (b + 1) hop hnone
    simpa [Strand.post, expiries_snoc] using hnext
  | armRead _ _ _ hnot | keepAlive _ hnot => exact absurd ht hnot
  | startRead _ _ heq | waitRead _ _ heq | readDone _ _ _ heq | idle _ heq =>
    exact absurd heq hne

/-- **A step keeps the invariant.** -/
theorem inv_step {s s' : Peer} {e : Event} (hs : Inv own s) (hp : Proper own s e)
    (h : step own s e = some s') : Inv own s' := by
  have hread : ∀ {part : Segment} (data : Option (List UInt8)), s.state.op = some (.read part) →
      (part = .handshake → ∀ bytes, data = some bytes → accepted own bytes = true) →
      Inv own (complete (.readDone part data) s) := by
    intro part data hop hgood
    by_cases hpart : part = .handshake
    · subst hpart
      exact hs.complete_leads hop (show (Op.read .handshake).Connects from trivial) (hgood rfl)
    · exact hs.complete_readDone hop hpart data
  cases e with
  | run around => exact inv_turn hs (Or.inl hp) h
  | resolve ok =>
    obtain ⟨hop, hs'⟩ := Option.ite_none_right_eq_some.mp h
    obtain rfl := Option.some.inj hs'
    cases ok with
    | true => exact hs.complete_resolved hop hp
    | false =>
      exact hs.complete_leads hop (show Op.resolve.Connects from trivial)
        (show Handler.Leads own (.resolved false) from rfl)
  | connect ok =>
    obtain ⟨hop, hs'⟩ := Option.ite_none_right_eq_some.mp h
    obtain rfl := Option.some.inj hs'
    exact hs.complete_leads hop (show Op.connect.Connects from trivial)
      (show Handler.Leads own (.connected ok) from trivial)
  | receive data =>
    simp only [step] at h
    split at h
    · rename_i part hop
      obtain ⟨-, hs'⟩ := Option.ite_none_right_eq_some.mp h
      obtain rfl := Option.some.inj hs'
      refine hread (some data) hop fun hpart bytes hbytes => ?_
      obtain rfl := Option.some.inj hbytes
      exact hp (hpart ▸ hop)
    · exact absurd h (Option.some_ne_none _).symm
  | readFails =>
    simp only [step] at h
    split at h
    · rename_i part hop
      obtain rfl := Option.some.inj h
      exact hread none hop fun _ _ hnone => absurd hnone (Option.some_ne_none _).symm
    · exact absurd h (Option.some_ne_none _).symm
  | expire =>
    obtain ⟨expiry, ht, rfl⟩ := Option.map_eq_some_iff.mp h
    cases expiry with
    | cancel => exact hs.expire ht
    | disconnect => exact inv_post_kills _ (show Handler.Kills (.expired .disconnect) from trivial)
  | sendFails =>
    obtain rfl := Option.some.inj h
    exact inv_post_kills s (show Handler.Kills .sendFailed from trivial)

theorem inv_process : Inv own process :=
  Shape.inv (Shape.start (Or.inl rfl) 0 0 rfl (Option.some_ne_none _).symm)

end Inv

/-! ### Without a deadline -/

section Unsupervised

variable {own : List UInt8} {c : Client}

theorem not_guarded (hsub : c.subscribed = true) (hd : c.isDisconnected = false)
    (ht : c.timeout = none) : ¬ Guarded c := by
  intro h
  have hsome := h hsub hd
  rw [ht] at hsome
  exact absurd hsome Bool.false_ne_true

/-- If the only handler begins an operation, nothing sets the timer. -/
theorem not_supervised_of_begins {h : Handler} (hh : h = .resolved true ∨ ∃ part, h = .read part)
    (hc : ¬ Guarded c) : ¬ Supervised own ⟨c, [h]⟩ := by
  intro hs
  have hnext := hs.of_turn hc (turn_cons ⟨true, true⟩ c h [])
  rcases hh with rfl | ⟨part, rfl⟩
  · exact hc (hnext.of_nil rfl)
  · exact hc (hnext.of_nil rfl)

/-- **An answer that is not accepted leaves nothing behind**: no timer, no read, no handler. -/
theorem unsupervised_rejected (around : Surroundings) {data : List UInt8}
    (hdata : accepted own data = false) (hsub : c.subscribed = true) (hd : c.isDisconnected = false) :
    ¬ Supervised own ⟨(exec own around (.readDone .handshake (some data)) c).1,
      (exec own around (.readDone .handshake (some data)) c).2⟩ := by
  have hexec : exec own around (.readDone .handshake (some data)) c = (stopAwait c, []) := by
    simp [exec, onRead, hdata]
  rw [hexec]
  exact fun h => not_guarded (c := stopAwait c) hsub hd rfl (h.of_nil rfl)

/-- **After a message body the next header is read without a deadline.** -/
theorem unsupervised_body {around : Surroundings} (haround : around.disconnects = false) (size : ℕ)
    (data : List UInt8) (hsub : c.subscribed = true) (hd : c.isDisconnected = false) :
    ¬ Supervised own ⟨(exec own around (.readDone (.body size) (some data)) c).1,
      (exec own around (.readDone (.body size) (some data)) c).2⟩ := by
  have hexec : exec own around (.readDone (.body size) (some data)) c =
      (stopAwait c, [.read .header]) := by
    have hd' : (stopAwait c).isDisconnected = false := hd
    simp [exec, onRead, haround, doRead, hd']
  rw [hexec]
  exact not_supervised_of_begins (Or.inr ⟨_, rfl⟩) (not_guarded hsub hd rfl)

/-- **An expiry that comes to its turn after the answer of the resolver** stops the timer of the
connecting, but not the connecting. -/
theorem unsupervised_late (around : Surroundings) (hop : c.op = none) (hsub : c.subscribed = true)
    (hd : c.isDisconnected = false) :
    ¬ Supervised own ⟨(exec own around (.expired .cancel) c).1,
      .resolved true :: (exec own around (.expired .cancel) c).2⟩ := by
  rw [exec_expired around hop]
  exact not_supervised_of_begins (Or.inl rfl) (not_guarded hsub hd rfl)

end Unsupervised

/-- A turn of a handler, in the runs below. -/
def turnOf : Event := .run ⟨true, true⟩

/-- A handshake with zeros in the place of the info hash and of the id. -/
def plainHandshake : List UInt8 :=
  0x13 :: "BitTorrent protocol".toList.map (fun c => c.toNat.toUInt8) ++ List.replicate 48 0

/-- The steps up to the read of the answer to the handshake. -/
def connecting : List Event :=
  [turnOf, turnOf, .resolve true, turnOf, .connect true, turnOf, turnOf, turnOf, turnOf, turnOf]

end CppTorrent.Swarm.Deadline
