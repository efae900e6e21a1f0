import CppTorrent.Lib.Runs
import CppTorrent.Swarm.Handshake
import CppTorrent.Swarm.Subscribers

/-! # Two programs that dial each other

Each of two programs has a listener and some torrents, and each torrent has a master peer with its table
of subscribers. The address of the other program may come from a tracker any number of times, at any
time, on both sides; a client that is taken by `Subscribe` dials, and dials again after a failure until
its attempts are used up. The listener reads the handshake of whoever has dialed before a torrent is
asked to take the client, and the torrent takes it only if it has no client for this address. So a
connection goes through the stages of `Handshake`, and the two tables say which connections are in use.

A program whose handler throws ends: `remote_endpoint` throws on a socket that is not connected any
more, and the log message of the listener looks at the first torrent even if there is none.

In every run, a client that has dialed and is past `access` has been sent the whole handshake by a client of
the same torrent, and what one handles is a prefix of what the other one has sent, as long as the sends of
the clients tear no frames (`opened_run`). Of two connections that cross, because both programs have
dialed, at most one comes through (`crossing_run`): the later one finds the table of the other side
occupied. -/

namespace CppTorrent.Swarm.Opening

open CppTorrent.Lib.Runs
open CppTorrent.Swarm.Handshake
open CppTorrent.Swarm.Subscribers (ipToStr maxConnectAttempts)
open CppTorrent.Swarm.TimedClient (checkHandshake handshakeLength)
open CppTorrent.Wire.ReadLoop (Body encode)

/-! ### The model -/

/-- The addresses of the two programs, and the peer ids of their master peers. -/
structure Config where
  ip : Bool → ℕ
  id : Bool → Digest → Digest

/-- `MasterPeer::GetHandshake`. -/
def Config.handshake (cfg : Config) (p : Bool) (h : Digest) : List UInt8 := makeHandshake h (cfg.id p h)

/-- A client in a table. -/
structure Subscriber where
  connectAttempts : ℕ
  /-- the connection of its socket, none while `Connect` is in progress -/
  conn : Option ℕ
  deriving DecidableEq

structure State where
  /-- `Listener::torrents_` -/
  torrents : Bool → List Digest
  /-- `peers_subscribers_` of the torrent, at the address of the other program -/
  subscribers : Bool → Digest → Option Subscriber
  /-- the connections there have been, in their order -/
  conns : List Conn
  /-- no handler has thrown -/
  running : Bool → Bool

/-- What a program does. -/
inductive Act where
  /-- `Listener::AddTorrent` -/
  | addTorrent (h : Digest)
  /-- `MasterPeer::InitiateJob`, with the address of the other program among the peers -/
  | initiateJob (h : Digest)
  /-- the connection that a client asks for is there -/
  | connected (h : Digest)
  /-- an operation of the opening fails, or its timer expires, and `try_again_connect` is called -/
  | tryAgain (h : Digest)
  /-- a client calls `Disconnect` -/
  | disconnect (h : Digest)
  /-- `Listener::do_accept` takes a connection -/
  | accept (k : ℕ)
  /-- the read of a `participant` fails, or its timer expires -/
  | drop (k : ℕ)
  /-- the callback of the read in `participant::Verify`; `remote_endpoint` throws or not -/
  | handshakeRead (k : ℕ) (throws : Bool)
  /-- the `verify_handshake` that `Process` has posted -/
  | verifyHandshake (k : ℕ)
  /-- the callback of the read in `send_handshake` -/
  | answerRead (k : ℕ)
  /-- a portion of a handshake is written -/
  | write (k size : ℕ)
  /-- the callback of the write of a handshake -/
  | handshakeSent (k : ℕ)
  /-- a portion arrives -/
  | read (k size : ℕ)
  /-- a frame is sent, and the socket takes these bytes for it -/
  | send (k : ℕ) (body : Body) (taken : List UInt8)
  | sendEarly (k : ℕ) (body : Body)

/-- The entry of the table changes. -/
def State.put (p : Bool) (h : Digest) (sub : Option Subscriber) (s : State) : State :=
  { s with subscribers := Function.update s.subscribers p (Function.update (s.subscribers p) h sub) }

/-- One connection changes. -/
def State.onConn (k : ℕ) (f : Conn → Option Conn) (s : State) : Option State :=
  (s.conns[k]?.bind f).map fun c => { s with conns := s.conns.set k c }

/-- The program ends. -/
def State.stop (p : Bool) (s : State) : State := { s with running := Function.update s.running p false }

/-- An end is given up; past `access` what has been read can still be handled. -/
def abandoned (p : Bool) (c : Conn) : Conn :=
  match c.ends p with
  | .accessed _ _ _ => c
  | _ => c.setEnd p .closed

/-- A client gives up its connection. -/
def State.abandon (p : Bool) (conn : Option ℕ) (s : State) : State :=
  match conn with
  | none => s
  | some k => (s.onConn k fun c => some (abandoned p c)).getD s

/-- `MasterPeer::Subscribe`, for a client with the address of the other program. -/
def subscribe (cfg : Config) (p : Bool) (h : Digest) (sub : Subscriber) (s : State) : Option State :=
  if ipToStr (cfg.ip !p) = ipToStr (cfg.ip p) then none
  else if (s.subscribers p h).isSome then none
  else some (s.put p h (some sub))

/-- `PeerClient::try_again_connect`. -/
def tryAgainConnect (p : Bool) (h : Digest) (sub : Subscriber) (s : State) : State :=
  if sub.connectAttempts - 1 = 0 then (s.abandon p sub.conn).put p h none
  else (s.abandon p sub.conn).put p h (some ⟨sub.connectAttempts - 1, none⟩)

/-- An operation of `send_handshake` is in progress. -/
def shakesHands : Stage → Bool
  | .sendingHandshake _ | .readingHandshake _ => true
  | _ => false

/-- The operation in progress is one of the opening of a connection. -/
def State.opening (p : Bool) (conn : Option ℕ) (s : State) : Bool :=
  match conn with
  | none => true
  | some k => s.conns[k]?.any fun c => shakesHands (c.ends p)

/-- A handshake with an info hash has come. -/
def admitted (cfg : Config) (p : Bool) (k : ℕ) (throws : Bool) (s : State) (c : Conn) (h : Digest)
    (buff : List UInt8) : State :=
  -- the log message looks at `torrents_.begin()`
  if s.torrents p = [] then s.stop p
  else if h ∉ s.torrents p then { s with conns := s.conns.set k (c.setEnd p .closed) }
  else if throws then s.stop p
  else
    match subscribe cfg p h ⟨maxConnectAttempts, some k⟩ s with
    | some s => { s with conns := s.conns.set k (c.setEnd p (.verifying h buff)) }
    | none => { s with conns := s.conns.set k (c.setEnd p .closed) }

theorem length_hashOf {buff : List UInt8} (hlen : buff.length = handshakeLength) :
    (hashOf buff).length = 20 := by
  rw [hashOf, List.length_take, List.length_drop, hlen]
  rfl

/-- The callback of the read in `participant::Verify`. -/
def handshakeRead (cfg : Config) (p : Bool) (k : ℕ) (throws : Bool) (s : State) (c : Conn) :
    Option State :=
  match c.ends p with
  | .participant buff =>
    if hlen : buff.length = handshakeLength then
      some (admitted cfg p k throws s c ⟨hashOf buff, length_hashOf hlen⟩ buff)
    else none
  | _ => none

/-- `PeerClient::verify_handshake`. -/
def verifyHandshake (cfg : Config) (p : Bool) (k : ℕ) (s : State) (c : Conn) : Option State :=
  match c.ends p with
  | .verifying h v =>
    some (if checkHandshake (cfg.handshake p h) v then
      { s with conns := s.conns.set k (c.setEnd p (.answering h v)) }
    else (s.abandon p (some k)).put p h none)
  | _ => none

/-- A program that is running does something. -/
def act (cfg : Config) (p : Bool) (s : State) : Act → Option State
  | .addTorrent h => some { s with torrents := Function.update s.torrents p (h :: s.torrents p) }
  | .initiateJob h => some ((subscribe cfg p h ⟨maxConnectAttempts, none⟩ s).getD s)
  | .connected h =>
    match s.subscribers p h with
    | some ⟨attempts, none⟩ =>
      some { s.put p h (some ⟨attempts, some s.conns.length⟩) with
        conns := s.conns ++ [dial p h (cfg.handshake p h)] }
    | _ => none
  | .tryAgain h =>
    match s.subscribers p h with
    | some sub => if s.opening p sub.conn then some (tryAgainConnect p h sub s) else none
    | none => none
  | .disconnect h =>
    match s.subscribers p h with
    | some sub => some ((s.abandon p sub.conn).put p h none)
    | none => none
  | .accept k =>
    s.onConn k fun c =>
      match c.ends p with
      | .backlog => some (c.setEnd p (.participant []))
      | _ => none
  | .drop k =>
    s.onConn k fun c =>
      match c.ends p with
      | .backlog | .participant _ => some (c.setEnd p .closed)
      | _ => none
  | .handshakeRead k throws => s.conns[k]?.bind (handshakeRead cfg p k throws s)
  | .verifyHandshake k => s.conns[k]?.bind (verifyHandshake cfg p k s)
  | .answerRead k =>
    s.onConn k fun c =>
      (checkAnswer c.torrent (cfg.handshake p c.torrent) (c.ends p)).map fun st => c.setEnd p st
  | .write k size => s.onConn k fun c => c.push p (written size (c.ends p))
  | .handshakeSent k => s.onConn k fun c => (handshakeSent (c.ends p)).map fun st => c.setEnd p st
  | .read k size => s.onConn k fun c => c.pull p size
  | .send k body taken => s.onConn k fun c => c.push p (sent body taken (c.ends p))
  | .sendEarly k body => s.onConn k fun c => c.push p (sentEarly body (c.ends p))

/-- One of the programs does something. -/
def step (cfg : Config) (s : State) (e : Bool × Act) : Option State :=
  if s.running e.1 then act cfg e.1 s e.2 else none

/-- Two programs without torrents. -/
def init : State := ⟨fun _ => [], fun _ _ => none, [], fun _ => true⟩

/-- Something is sent before `access`. -/
def Act.isEarly : Act → Bool
  | .sendEarly _ _ => true
  | _ => false

/-- Nothing is sent before `access`. -/
def NotEarly (_ : State) (e : Bool × Act) : Prop := e.2.isEarly = false

/-- The socket takes a frame whole, as when no other send is in progress. -/
def Act.isWhole : Act → Bool
  | .send _ body taken => taken = encode body
  | _ => true

/-- Nothing is sent before `access`, and no frame is torn. -/
def Orderly (s : State) (e : Bool × Act) : Prop := NotEarly s e ∧ e.2.isWhole = true

/-- A client of the torrent has dialed and is past `access`. -/
def Through (s : State) (p : Bool) (h : Digest) : Prop :=
  ∃ attempts k c, s.subscribers p h = some ⟨attempts, some k⟩ ∧ s.conns[k]? = some c ∧
    c.dialer = p ∧ (c.ends p).Accessed h

/-! ### What holds in every state -/

section Invariant

variable {whole : Prop} {cfg : Config} {p : Bool} {h : Digest} {s s' : State} {k : ℕ} {c c' : Conn}

@[simp] theorem length_handshake (cfg : Config) (p : Bool) (h : Digest) :
    (cfg.handshake p h).length = handshakeLength := length_makeHandshake h (cfg.id p h)

theorem handshake_ne_nil (cfg : Config) (p : Bool) (h : Digest) : cfg.handshake p h ≠ [] := by
  intro hnil
  have hlen := length_handshake cfg p h
  rw [hnil] at hlen
  cases hlen

/-- No client has been made for the connection, or it has been given up. -/
def Outside : Stage → Prop
  | .backlog | .participant _ | .closed => True
  | _ => False

/-- The program has not answered on the connection, and has no client there that is going to. -/
def Unanswered (p : Bool) (c : Conn) : Prop := Outside (c.ends p) ∧ (c.pipes p).sent = []

/-- Every connection is sound, the clients in the tables have connections of their torrents, and while a
client has the connection it has dialed, no later one that the other program dials is answered. -/
structure Good (whole : Prop) (cfg : Config) (s : State) : Prop where
  conns : ∀ {k : ℕ} {c : Conn}, s.conns[k]? = some c →
    Sound whole s.torrents (cfg.handshake c.dialer c.torrent) c
  table : ∀ {p : Bool} {h : Digest} {attempts k : ℕ}, s.subscribers p h = some ⟨attempts, some k⟩ →
    ∃ c, s.conns[k]? = some c ∧ c.torrent = h
  crossing : ∀ {p : Bool} {h : Digest} {attempts j k : ℕ} {c c' : Conn},
    s.subscribers p h = some ⟨attempts, some j⟩ → s.conns[j]? = some c → c.dialer = p → j < k →
    s.conns[k]? = some c' → c'.dialer = (!p) → c'.torrent = h → Unanswered p c'

theorem outside_update {ends : Bool → Stage} {st : Stage} {q : Bool}
    (h : Outside (ends p) → Outside st) (hout : Outside (ends q)) :
    Outside (Function.update ends p st q) := by
  by_cases hq : q = p
  · subst hq
    rw [Function.update_self]
    exact h hout
  · rwa [Function.update_of_ne hq]

theorem outside_of_arrived {bytes : List UInt8} {st st' : Stage} (h : arrived bytes st = some st')
    (hout : Outside st) : Outside st' := by
  cases st with
  | participant buff =>
    unfold arrived at h
    dsimp only at h
    split_ifs at h
    cases h
    trivial
  | backlog | closed => cases h
  | _ => exact hout.elim

/-- An end that has not answered comes to another stage without answering. -/
theorem Unanswered.setEnd {st : Stage} {q : Bool} (hu : Unanswered q c)
    (hst : Outside (c.ends p) → Outside st) : Unanswered q (c.setEnd p st) :=
  ⟨outside_update hst hu.1, hu.2⟩

/-- What an end writes that has a client is not written by one that has not answered. -/
theorem Unanswered.push {out : Option (List UInt8 × Stage)} {q : Bool} (hu : Unanswered q c)
    (h : c.push p out = some c') (hout : out ≠ none → ¬ Outside (c.ends p)) : Unanswered q c' := by
  obtain ⟨⟨bytes, st⟩, rfl, rfl⟩ := Option.map_eq_some_iff.mp h
  have hp : ¬ Outside (c.ends p) := hout nofun
  have hq : q ≠ p := fun heq => hp (heq ▸ hu.1)
  refine ⟨outside_update (fun ho => absurd ho hp) hu.1, ?_⟩
  show (Function.update c.pipes p _ q).sent = []
  rw [Function.update_of_ne hq]
  exact hu.2

theorem Unanswered.pull {size : ℕ} {q : Bool} (hu : Unanswered q c) (h : c.pull p size = some c') :
    Unanswered q c' := by
  obtain ⟨st, hst, rfl⟩ := Option.map_eq_some_iff.mp h
  refine ⟨outside_update (outside_of_arrived hst) hu.1, ?_⟩
  show (Function.update c.pipes (!p) _ q).sent = []
  by_cases hq : q = (!p)
  · subst hq
    rw [Function.update_self]
    exact hu.2
  · rw [Function.update_of_ne hq]
    exact hu.2

theorem not_outside_of_written {size : ℕ} {st : Stage} (h : written size st ≠ none) : ¬ Outside st := by
  cases st <;> first | exact id | exact absurd rfl h

theorem not_outside_of_sent {body : Body} {taken : List UInt8} {st : Stage}
    (h : sent body taken st ≠ none) : ¬ Outside st := by
  cases st <;> first | exact id | exact absurd rfl h

theorem not_outside_of_handshakeSent {st st' : Stage} (h : handshakeSent st = some st') :
    ¬ Outside st := by
  cases st <;> first | exact id | cases h

theorem not_outside_of_checkAnswer {torrent : Digest} {own : List UInt8} {st st' : Stage}
    (h : checkAnswer torrent own st = some st') : ¬ Outside st := by
  cases st <;> first | exact id | cases h

/-- What is found in the list when one connection has changed. -/
theorem conns_set (hc : s.conns[k]? = some c) (hdialer : c'.dialer = c.dialer)
    (htorrent : c'.torrent = c.torrent) {i : ℕ} {d' : Conn} (hd' : (s.conns.set k c')[i]? = some d') :
    ∃ d, s.conns[i]? = some d ∧ d'.dialer = d.dialer ∧ d'.torrent = d.torrent ∧
      (d' = d ∨ i = k ∧ d = c ∧ d' = c') := by
  rw [List.getElem?_set] at hd'
  split_ifs at hd' with hik hlt
  · subst hik
    cases hd'
    exact ⟨c, hc, hdialer, htorrent, Or.inr ⟨rfl, rfl, rfl⟩⟩
  · exact ⟨d', hd', rfl, rfl, Or.inl rfl⟩

theorem exists_conns_set (hc : s.conns[k]? = some c) (htorrent : c'.torrent = c.torrent) {i : ℕ} {d : Conn}
    (hd : s.conns[i]? = some d) :
    ∃ d', (s.conns.set k c')[i]? = some d' ∧ d'.torrent = d.torrent := by
  by_cases hik : k = i
  · subst hik
    cases hc.symm.trans hd
    have hlt := (List.getElem?_eq_some_iff.mp hd).1
    exact ⟨c', by simp [hlt], htorrent⟩
  · exact ⟨d, by simpa [hik] using hd, rfl⟩

theorem subscribers_put (p : Bool) (h : Digest) (sub : Option Subscriber) (s : State) (q : Bool)
    (g : Digest) :
    (s.put p h sub).subscribers q g = if q = p ∧ g = h then sub else s.subscribers q g := by
  unfold State.put
  dsimp only
  by_cases hqp : q = p
  · subst hqp
    by_cases hgh : g = h
    · simp [hgh]
    · simp [hgh]
  · simp [hqp]

/-- **A connection changes.** -/
theorem Good.set (hg : Good whole cfg s) (hc : s.conns[k]? = some c) (hdialer : c'.dialer = c.dialer)
    (htorrent : c'.torrent = c.torrent) (hout : Unanswered (!c.dialer) c → Unanswered (!c.dialer) c')
    (hsound : Sound whole s.torrents (cfg.handshake c.dialer c.torrent) c') :
    Good whole cfg { s with conns := s.conns.set k c' } := by
  refine ⟨fun hd' => ?_, fun hsub => ?_, @fun q g a j i e d' hsub hj hj' hlt hd' hother hg' => ?_⟩
  · obtain ⟨d, hd, -, -, rfl | ⟨-, rfl, rfl⟩⟩ := conns_set hc hdialer htorrent hd'
    · exact hg.conns hd
    · rw [hdialer, htorrent]
      exact hsound
  · obtain ⟨d, hd, hd'⟩ := hg.table hsub
    obtain ⟨d', hset, hsame⟩ := exists_conns_set hc htorrent hd
    exact ⟨d', hset, hsame.trans hd'⟩
  · obtain ⟨d₀, hd₀, hdialer₀, -, -⟩ := conns_set hc hdialer htorrent hj
    obtain ⟨d, hd, hdialer₁, htorrent₁, hcases⟩ := conns_set hc hdialer htorrent hd'
    have hold := hg.crossing hsub hd₀ (hdialer₀.symm.trans hj') hlt hd (hdialer₁.symm.trans hother)
      (htorrent₁.symm.trans hg')
    rcases hcases with rfl | ⟨-, rfl, rfl⟩
    · exact hold
    · have hq : q = (!d.dialer) := by rw [← hdialer, hother, Bool.not_not]
      subst hq
      exact hout hold

/-- An entry of a table changes to one without a connection. -/
theorem Good.put {sub : Option Subscriber} (hg : Good whole cfg s)
    (hsub : ∀ attempts k, sub ≠ some ⟨attempts, some k⟩) : Good whole cfg (s.put p h sub) := by
  have hentry : ∀ {q : Bool} {g : Digest} {attempts k : ℕ},
      (s.put p h sub).subscribers q g = some ⟨attempts, some k⟩ →
      s.subscribers q g = some ⟨attempts, some k⟩ := by
    intro q g attempts k hq
    rw [subscribers_put] at hq
    split_ifs at hq
    · exact absurd hq (hsub attempts k)
    · exact hq
  exact ⟨hg.conns, fun hq => hg.table (hentry hq), fun hq => hg.crossing (hentry hq)⟩

/-- A client has got the connection it asked for. -/
theorem Good.connected {attempts : ℕ} (hg : Good whole cfg s) :
    Good whole cfg { s.put p h (some ⟨attempts, some s.conns.length⟩) with
      conns := s.conns ++ [dial p h (cfg.handshake p h)] } := by
  have hfound : ∀ {i : ℕ} {d : Conn}, (s.conns ++ [dial p h (cfg.handshake p h)])[i]? = some d →
      s.conns[i]? = some d ∨ i = s.conns.length ∧ d = dial p h (cfg.handshake p h) := by
    intro i d hd
    rw [List.getElem?_append] at hd
    split_ifs at hd with hlt
    · exact Or.inl hd
    · have hlen := (List.getElem?_eq_some_iff.mp hd).1
      rw [List.length_singleton] at hlen
      obtain rfl : i = s.conns.length := by omega
      rw [Nat.sub_self] at hd
      cases hd
      exact Or.inr ⟨rfl, rfl⟩
  have hentry : ∀ {q : Bool} {g : Digest} {a j : ℕ},
      (s.put p h (some ⟨attempts, some s.conns.length⟩)).subscribers q g = some ⟨a, some j⟩ →
      q = p ∧ g = h ∧ j = s.conns.length ∨ s.subscribers q g = some ⟨a, some j⟩ := by
    intro q g a j hq
    rw [subscribers_put] at hq
    split_ifs at hq with hsame
    · cases hq
      exact Or.inl ⟨hsame.1, hsame.2, rfl⟩
    · exact Or.inr hq
  refine ⟨fun hd => ?_, @fun q g a j hq => ?_, @fun q g a j i e d hq hj hj' hlt hd hother hg' => ?_⟩
  · rcases hfound hd with hd | ⟨-, rfl⟩
    · exact hg.conns hd
    · exact sound_dial p h
  · rcases hentry hq with ⟨rfl, rfl, rfl⟩ | hq
    · exact ⟨dial q g (cfg.handshake q g), by simp, rfl⟩
    · obtain ⟨d, hd, htorrent⟩ := hg.table hq
      have hlt := (List.getElem?_eq_some_iff.mp hd).1
      exact ⟨d, by rwa [List.getElem?_append_left hlt], htorrent⟩
  · rcases hentry hq with ⟨rfl, rfl, rfl⟩ | hq
    · -- there is no later connection
      have hlen := (List.getElem?_eq_some_iff.mp hd).1
      rw [List.length_append, List.length_singleton] at hlen
      omega
    · obtain ⟨d, hd₀, -⟩ := hg.table hq
      have hjlt := (List.getElem?_eq_some_iff.mp hd₀).1
      rw [List.getElem?_append_left hjlt] at hj
      rcases hfound hd with hd | ⟨-, rfl⟩
      · exact hg.crossing hq hj hj' hlt hd hother hg'
      · have hback : (dial p h (cfg.handshake p h)).ends q = .backlog := if_neg fun hqp => by
          rw [hqp] at hother
          exact Bool.not_ne_self p hother.symm
        refine ⟨?_, rfl⟩
        rw [hback]
        trivial

/-- **A client of the listener is taken**: the table was empty, so it has no connection that was dialed
before. -/
theorem Good.taken {attempts : ℕ} {st : Stage} (hg : Good whole cfg s) (hc : s.conns[k]? = some c)
    (hp : p = (!c.dialer)) (hfree : s.subscribers p c.torrent = none)
    (hsound : Sound whole s.torrents (cfg.handshake c.dialer c.torrent) (c.setEnd p st)) :
    Good whole cfg { s.put p c.torrent (some ⟨attempts, some k⟩) with
      conns := s.conns.set k (c.setEnd p st) } := by
  have hentry : ∀ {q : Bool} {g : Digest} {a j : ℕ},
      (s.put p c.torrent (some ⟨attempts, some k⟩)).subscribers q g = some ⟨a, some j⟩ →
      q = p ∧ g = c.torrent ∧ j = k ∨ s.subscribers q g = some ⟨a, some j⟩ := by
    intro q g a j hq
    rw [subscribers_put] at hq
    split_ifs at hq with hsame
    · cases hq
      exact Or.inl ⟨hsame.1, hsame.2, rfl⟩
    · exact Or.inr hq
  have hset : ∀ {i : ℕ} {d' : Conn}, (s.conns.set k (c.setEnd p st))[i]? = some d' →
      ∃ d, s.conns[i]? = some d ∧ d'.dialer = d.dialer ∧ d'.torrent = d.torrent ∧
        (d' = d ∨ i = k ∧ d = c ∧ d' = c.setEnd p st) :=
    fun hd' => conns_set hc (by rfl) (by rfl) hd'
  refine ⟨fun hd' => ?_, @fun q g a j hq => ?_, @fun q g a j i e d' hq hj hj' hlt hd' hother hg' => ?_⟩
  · obtain ⟨d, hd, -, -, rfl | ⟨-, rfl, rfl⟩⟩ := hset hd'
    · exact hg.conns hd
    · exact hsound
  · rcases hentry hq with ⟨rfl, rfl, rfl⟩ | hq
    · exact exists_conns_set hc (by rfl) hc
    · obtain ⟨d, hd, rfl⟩ := hg.table hq
      exact exists_conns_set hc (by rfl) hd
  · obtain ⟨e₀, he₀, hdialer₀, -, -⟩ := hset hj
    obtain ⟨d, hd, hdialer₁, htorrent₁, hcases⟩ := hset hd'
    rcases hentry hq with ⟨rfl, rfl, rfl⟩ | hold
    · -- this client has not dialed
      cases hc.symm.trans he₀
      rw [← hdialer₀, hj'] at hp
      exact absurd hp.symm (Bool.not_ne_self q)
    · rcases hcases with rfl | ⟨-, rfl, rfl⟩
      · exact hg.crossing hold he₀ (hdialer₀.symm.trans hj') hlt hd hother hg'
      · -- the table has no other client for this torrent
        have hq' : q = p := by rw [hp, ← hdialer₁, hother, Bool.not_not]
        have hg₁ : g = d.torrent := hg'.symm.trans htorrent₁
        rw [hq', hg₁, hfree] at hold
        cases hold

theorem not_accessed_of_abandoned (hne : abandoned p c ≠ c) (torrent : Digest) :
    ¬ (c.ends p).Accessed torrent := by
  rintro ⟨frames, loop, hend⟩
  apply hne
  unfold abandoned
  rw [hend]

theorem abandoned_eq (p : Bool) (c : Conn) :
    abandoned p c = c ∨ abandoned p c = c.setEnd p .closed := by
  unfold abandoned
  split
  · exact Or.inl rfl
  · exact Or.inr rfl

/-- A client gives up its connection. -/
theorem Good.abandon {conn : Option ℕ} (hg : Good whole cfg s) : Good whole cfg (s.abandon p conn) := by
  cases conn with
  | none => exact hg
  | some k =>
    unfold State.abandon State.onConn
    dsimp only
    cases hc : s.conns[k]? with
    | none => exact hg
    | some c =>
      show Good whole cfg { s with conns := s.conns.set k (abandoned p c) }
      by_cases hsame : abandoned p c = c
      · rw [hsame]
        exact hg.set hc rfl rfl id (hg.conns hc)
      · have hend := not_accessed_of_abandoned hsame
        rw [(abandoned_eq p c).resolve_left hsame]
        exact hg.set hc rfl rfl (fun hu => hu.setEnd fun _ => trivial) ((hg.conns hc).close (hend _))

theorem Good.onConn {f : Conn → Option Conn} (hg : Good whole cfg s) (h : s.onConn k f = some s')
    (hf : ∀ {c c' : Conn}, Sound whole s.torrents (cfg.handshake c.dialer c.torrent) c → f c = some c' →
      Sound whole s.torrents (cfg.handshake c.dialer c.torrent) c' ∧ c'.dialer = c.dialer ∧
        c'.torrent = c.torrent ∧ (Unanswered (!c.dialer) c → Unanswered (!c.dialer) c')) :
    Good whole cfg s' := by
  obtain ⟨c', hc', rfl⟩ := Option.map_eq_some_iff.mp h
  obtain ⟨c, hc, hfc⟩ := Option.bind_eq_some_iff.mp hc'
  obtain ⟨hsound, hdialer, htorrent, hout⟩ := hf (hg.conns hc) hfc
  exact hg.set hc hdialer htorrent hout hsound

/-- Something is written to a connection. -/
theorem Good.push {out : Stage → Option (List UInt8 × Stage)} (hg : Good whole cfg s)
    (h : s.onConn k (fun c => c.push p (out (c.ends p))) = some s')
    (hsound : ∀ {c c' : Conn}, Sound whole s.torrents (cfg.handshake c.dialer c.torrent) c →
      c.push p (out (c.ends p)) = some c' → Sound whole s.torrents (cfg.handshake c.dialer c.torrent) c')
    (hout : ∀ {st : Stage}, out st ≠ none → ¬ Outside st) : Good whole cfg s' := by
  refine hg.onConn h fun {c c'} hs hpush => ⟨hsound hs hpush, ?_⟩
  have hanswer := fun hu : Unanswered (!c.dialer) c => hu.push hpush hout
  obtain ⟨⟨bytes, st⟩, ho, rfl⟩ := Option.map_eq_some_iff.mp hpush
  exact ⟨rfl, rfl, hanswer⟩

theorem Good.admitted {throws : Bool} {buff : List UInt8} (hg : Good whole cfg s) (hc : s.conns[k]? = some c)
    (hend : c.ends p = .participant buff) (hlen : buff.length = handshakeLength) :
    Good whole cfg (admitted cfg p k throws s c c.torrent buff) := by
  have hs := hg.conns hc
  have hclose : Good whole cfg { s with conns := s.conns.set k (c.setEnd p .closed) } := by
    refine hg.set hc rfl rfl (fun hu => hu.setEnd fun _ => trivial) (hs.close ?_)
    rintro ⟨frames, loop, hacc⟩
    rw [hend] at hacc
    cases hacc
  have hstop : Good whole cfg (s.stop p) := ⟨hg.conns, hg.table, hg.crossing⟩
  unfold Opening.admitted
  split_ifs with hnone hmem
  · exact hstop
  · exact hstop
  · unfold subscribe
    by_cases hip : ipToStr (cfg.ip !p) = ipToStr (cfg.ip p)
    · simp only [hip, if_true]
      exact hclose
    · by_cases hsome : (s.subscribers p c.torrent).isSome
      · simp only [hip, hsome, if_true, if_false]
        exact hclose
      · simp only [hip, hsome, if_false]
        exact hg.taken hc (hs.participant hend).1 (Option.not_isSome_iff_eq_none.mp hsome)
          (hs.verify (length_handshake ..) hend hlen hmem)
  · exact hclose

/-- **The info hash that the listener finds is the one the other program has dialed for.** -/
theorem hashOf_buff {buff : List UInt8} (hg : Good whole cfg s) (hc : s.conns[k]? = some c)
    (hend : c.ends p = .participant buff) (hlen : buff.length = handshakeLength) :
    hashOf buff = c.torrent.val := by
  have hs := hg.conns hc
  obtain ⟨-, -, hbuff⟩ := hs.participant hend
  rw [hbuff, hs.heard_eq (length_handshake ..) (hbuff ▸ hlen)]
  exact hashOf_makeHandshake _ _

theorem Good.handshakeRead {throws : Bool} (hg : Good whole cfg s) (hc : s.conns[k]? = some c)
    (h : handshakeRead cfg p k throws s c = some s') : Good whole cfg s' := by
  unfold Opening.handshakeRead at h
  split at h
  case h_2 => cases h
  case h_1 buff hend =>
    split_ifs at h with hlen
    have htorrent : (⟨hashOf buff, length_hashOf hlen⟩ : Digest) = c.torrent :=
      Subtype.ext (hashOf_buff hg hc hend hlen)
    rw [htorrent] at h
    cases h
    exact hg.admitted hc hend hlen

theorem Good.verifyHandshake (hg : Good whole cfg s) (hc : s.conns[k]? = some c)
    (h : verifyHandshake cfg p k s c = some s') : Good whole cfg s' := by
  have hs := hg.conns hc
  unfold Opening.verifyHandshake at h
  split at h
  case h_2 => cases h
  case h_1 g v hend =>
    cases h
    obtain ⟨-, rfl, rfl, -⟩ := hs.verifying hend
    rw [if_pos (by exact checkHandshake_makeHandshake _ _ _)]
    refine hg.set hc rfl rfl (fun hu => hu.setEnd fun hout => ?_) (hs.answer hend)
    rw [hend] at hout
    exact hout.elim

/-- **Every step keeps the invariant**, if nothing is sent before `access`. -/
theorem Good.act {a : Act} (hg : Good whole cfg s) (hearly : a.isEarly = false)
    (hwhole : whole → a.isWhole = true) (h : act cfg p s a = some s') : Good whole cfg s' := by
  cases a with
  | addTorrent g =>
    cases h
    refine ⟨fun hc => (hg.conns hc).mono fun q => ?_, hg.table, hg.crossing⟩
    by_cases hq : q = p
    · subst hq
      simp
    · simp [hq]
  | initiateJob g =>
    cases h
    unfold subscribe
    split_ifs
    · exact hg
    · exact hg
    · exact hg.put (by simp)
  | connected g =>
    unfold Opening.act at h
    dsimp only at h
    split at h
    · cases h
      exact hg.connected
    · cases h
  | tryAgain g =>
    unfold Opening.act at h
    dsimp only at h
    split at h
    · split_ifs at h
      cases h
      unfold tryAgainConnect
      split_ifs
      · exact hg.abandon.put (by simp)
      · exact hg.abandon.put (by simp)
    · cases h
  | disconnect g =>
    unfold Opening.act at h
    dsimp only at h
    split at h
    · cases h
      exact hg.abandon.put (by simp)
    · cases h
  | accept k =>
    refine hg.onConn h fun {c c'} hs hf => ?_
    split at hf
    case h_2 => cases hf
    case h_1 hend =>
      cases hf
      exact ⟨hs.accept hend, rfl, rfl, fun hu => hu.setEnd fun _ => trivial⟩
  | drop k =>
    refine hg.onConn h fun {c c'} hs hf => ?_
    have hclose : ¬ (c.ends p).Accessed c.torrent := by
      rintro ⟨frames, loop, hacc⟩
      rw [hacc] at hf
      cases hf
    split at hf
    case h_3 => cases hf
    all_goals
      cases hf
      exact ⟨hs.close hclose, rfl, rfl, fun hu => hu.setEnd fun _ => trivial⟩
  | handshakeRead k throws =>
    obtain ⟨c, hc, hf⟩ := Option.bind_eq_some_iff.mp h
    exact hg.handshakeRead hc hf
  | verifyHandshake k =>
    obtain ⟨c, hc, hf⟩ := Option.bind_eq_some_iff.mp h
    exact hg.verifyHandshake hc hf
  | answerRead k =>
    refine hg.onConn h fun {c c'} hs hf => ?_
    obtain ⟨st, hst, rfl⟩ := Option.map_eq_some_iff.mp hf
    refine ⟨hs.checkAnswer (length_handshake ..) (fun hp => ?_) hst, rfl, rfl,
      fun hu => hu.setEnd fun hout => absurd hout (not_outside_of_checkAnswer hst)⟩
    rw [hp]
    exact accepted_makeHandshake _ _
  | write k size =>
    exact hg.push h (fun hs hpush => hs.write hpush) not_outside_of_written
  | handshakeSent k =>
    refine hg.onConn h fun {c c'} hs hf => ?_
    obtain ⟨st, hst, rfl⟩ := Option.map_eq_some_iff.mp hf
    exact ⟨hs.handshakeSent (length_handshake ..) hst, rfl, rfl,
      fun hu => hu.setEnd fun hout => absurd hout (not_outside_of_handshakeSent hst)⟩
  | read k size =>
    refine hg.onConn h fun {c c'} hs hpull => ⟨hs.pull hpull, ?_⟩
    have hanswer := fun hu : Unanswered (!c.dialer) c => hu.pull hpull
    obtain ⟨st, hst, rfl⟩ := Option.map_eq_some_iff.mp hpull
    exact ⟨rfl, rfl, hanswer⟩
  | send k body taken =>
    have htaken : whole → taken = encode body := fun hw => of_decide_eq_true (hwhole hw)
    exact hg.push h (fun hs hpush => hs.send htaken hpush) not_outside_of_sent
  | sendEarly k body => cases hearly

theorem good_init (whole : Prop) (cfg : Config) : Good whole cfg init := by
  constructor
  · intro k c hc
    cases hc
  · intro p h attempts k hsub
    cases hsub
  · intro p h attempts j k c c' hsub
    cases hsub

theorem good_of_run {cond : State → Bool × Act → Prop} {acts : List (Bool × Act)}
    (hcond : ∀ s e, cond s e → NotEarly s e ∧ (whole → e.2.isWhole = true))
    (hacts : Along (step cfg) cond init acts) (hrun : run (step cfg) init acts = some s) :
    Good whole cfg s := by
  refine invariant_of_run (Good whole cfg) cond (fun s e s' hg hc h => ?_) (good_init whole cfg) hacts hrun
  obtain ⟨hearly, hwhole⟩ := hcond s e hc
  unfold step at h
  split_ifs at h
  exact hg.act hearly hwhole h

/-! ### Whole runs -/

/-- **A client that has dialed is past `access` only if the other program has its torrent and has sent the
whole handshake back; its client there calls `access`, unless it is given up. A client of the listener is
one of the torrent that was dialed for; and what an end hands to `handle_response` is a prefix of what the
other end has sent since its `access`**, as long as no frame is torn. -/
theorem opened_run {acts : List (Bool × Act)} (horderly : Along (step cfg) Orderly init acts)
    (hrun : run (step cfg) init acts = some s) (hc : s.conns[k]? = some c) :
    (∀ h, (c.ends c.dialer).Accessed h →
      h = c.torrent ∧ h ∈ s.torrents (!c.dialer) ∧
        cfg.handshake c.dialer h <+: (c.pipes !c.dialer).sent ∧ (c.ends !c.dialer).Admitted h) ∧
    (∀ h, (c.ends !c.dialer).Accessed h → h = c.torrent ∧ h ∈ s.torrents (!c.dialer)) ∧
    ∀ p, (c.ends p).handled <+: (c.ends !p).frames.map Body.bytes := by
  have hgood : Good True cfg s := good_of_run (fun _ _ hc => ⟨hc.1, fun _ => hc.2⟩) horderly hrun
  have hs := hgood.conns hc
  refine ⟨fun h hacc => ?_, fun h hacc => ?_, hs.handled_initial trivial (length_handshake ..)⟩
  · obtain ⟨rfl, hmem, hsent, hother⟩ := hs.agree (length_handshake ..) hacc
    exact ⟨rfl, hmem, hsent, hother⟩
  · obtain ⟨frames, loop, hend⟩ := hacc
    have hl := hs.listening
    rw [hend] at hl
    cases hl with
    | accessed hmem => exact ⟨rfl, hmem⟩

/-- **Of two connections that cross at most one comes through**: two programs never have clients for each
other, of the same torrent, that have both dialed and are both past `access`. -/
theorem crossing_run {acts : List (Bool × Act)} (hearly : Along (step cfg) NotEarly init acts)
    (hrun : run (step cfg) init acts = some s) (p : Bool) (h : Digest) :
    ¬ (Through s p h ∧ Through s (!p) h) := by
  have hg : Good False cfg s := good_of_run (fun _ _ hc => ⟨hc, False.elim⟩) hearly hrun
  -- the later connection is not answered by the program that has dialed the earlier one
  have hlater : ∀ {q : Bool} {attempts attempts' j k : ℕ} {c c' : Conn},
      s.subscribers q h = some ⟨attempts, some j⟩ → s.conns[j]? = some c → c.dialer = q →
      s.subscribers (!q) h = some ⟨attempts', some k⟩ → s.conns[k]? = some c' → c'.dialer = (!q) →
      (c'.ends !q).Accessed h → ¬ j < k := by
    intro q attempts attempts' j k c c' hsub hj hdialer hsub' hk hdialer' hacc hlt
    rw [← hdialer'] at hacc
    obtain ⟨htorrent, -, hsent, -⟩ := (hg.conns hk).agree (length_handshake ..) hacc
    have hunanswered := hg.crossing hsub hj hdialer hlt hk hdialer' htorrent.symm
    rw [hdialer', Bool.not_not, hunanswered.2, List.prefix_nil] at hsent
    exact handshake_ne_nil _ _ _ hsent
  rintro ⟨⟨attempts, j, c, hsub, hj, hdialer, hacc⟩, ⟨attempts', k, c', hsub', hk, hdialer', hacc'⟩⟩
  rcases Nat.lt_trichotomy j k with hlt | heq | hgt
  · exact hlater hsub hj hdialer hsub' hk hdialer' hacc' hlt
  · subst heq
    cases hj.symm.trans hk
    exact Bool.not_ne_self p (hdialer'.symm.trans hdialer)
  · exact hlater hsub' hk hdialer' (by rwa [Bool.not_not]) hj (by rwa [Bool.not_not])
      (by rwa [Bool.not_not]) hgt

end Invariant

/-! ### A run -/

/-- Two programs with different addresses. -/
def pair : Config := ⟨fun p => if p then 1 else 2, fun p _ => ⟨List.replicate 20 (if p then 3 else 4), rfl⟩⟩

/-- An info hash. -/
def sample : Digest := ⟨List.replicate 20 5, rfl⟩

/-- Both programs dial, and each refuses the connection of the other one: it has a client for this address
already. The client of the second program gives up; then the first one comes through with its second
connection, and handles what the other one sends. -/
def crossed : List (Bool × Act) :=
  [(true, .addTorrent sample), (false, .addTorrent sample), (true, .initiateJob sample),
   (false, .initiateJob sample), (true, .connected sample), (false, .connected sample),
   (true, .write 0 68), (false, .write 1 68), (true, .handshakeSent 0), (false, .handshakeSent 1),
   (false, .accept 0), (true, .accept 1), (false, .read 0 68), (true, .read 1 68),
   (false, .handshakeRead 0 false), (true, .handshakeRead 1 false), (false, .disconnect sample),
   (true, .tryAgain sample), (true, .connected sample), (true, .write 2 68), (true, .handshakeSent 2),
   (false, .accept 2), (false, .read 2 50), (false, .read 2 18), (false, .handshakeRead 2 false),
   (false, .verifyHandshake 2), (false, .write 2 68), (true, .read 2 68), (true, .answerRead 2),
   (false, .handshakeSent 2), (false, .send 2 ⟨[1], by decide⟩ [0, 0, 0, 1, 1]), (true, .read 2 5),
   (false, .send 2 ⟨[0], by decide⟩ [0, 0, 0, 1, 0])]

theorem orderly_crossed : Along (step pair) Orderly init crossed := by
  have horderly : ∀ e ∈ crossed, e.2.isEarly = false ∧ e.2.isWhole = true := by decide
  exact along_of_forall (fun e he _ => horderly e he) init

theorem notEarly_crossed : Along (step pair) NotEarly init crossed := by
  have hearly : ∀ e ∈ crossed, e.2.isEarly = false := by decide
  exact along_of_forall (fun e he _ => hearly e he) init

/-- The first program has come through, and has handled the first frame. -/
theorem crossed_spec : ∃ s c, run (step pair) init crossed = some s ∧
    s.subscribers true sample = some ⟨3, some 2⟩ ∧ s.conns[2]? = some c ∧ c.dialer = true ∧
    (c.ends true).Accessed sample ∧ (c.ends true).handled = [[1]] := by
  have htest : ((run (step pair) init crossed).any fun s =>
      decide (s.subscribers true sample = some ⟨3, some 2⟩) && s.conns[2]?.any fun c =>
        decide (c.dialer = true ∧ (c.ends true).Accessed sample ∧ (c.ends true).handled = [[1]])) =
      true := by
    decide +kernel
  obtain ⟨s, hs, htest⟩ := (Option.any_eq_true _ _).mp htest
  rw [Bool.and_eq_true, decide_eq_true_iff] at htest
  obtain ⟨c, hc, hview⟩ := (Option.any_eq_true _ _).mp htest.2
  exact ⟨s, c, hs, htest.1, hc, of_decide_eq_true hview⟩

theorem opened_run_crossed : ∃ s c, run (step pair) init crossed = some s ∧ s.conns[2]? = some c ∧
    (c.ends c.dialer).Accessed sample ∧ (c.ends !c.dialer).Admitted sample ∧
    [[1]] <+: (c.ends false).frames.map Body.bytes := by
  obtain ⟨s, c, hrun, -, hc, hdialer, hacc, hhandled⟩ := crossed_spec
  obtain ⟨hboth, -, hinitial⟩ := opened_run orderly_crossed hrun hc
  have hacc' : (c.ends c.dialer).Accessed sample := hdialer ▸ hacc
  exact ⟨s, c, hrun, hc, hacc', (hboth sample hacc').2.2.2, hhandled ▸ hinitial true⟩

theorem crossing_run_crossed : ∃ s, run (step pair) init crossed = some s ∧ Through s true sample ∧
    ¬ Through s false sample := by
  obtain ⟨s, c, hrun, hsub, hc, hdialer, hacc, -⟩ := crossed_spec
  have hthrough : Through s true sample := ⟨_, _, c, hsub, hc, hdialer, hacc⟩
  exact ⟨s, hrun, hthrough, fun hother =>
    crossing_run notEarly_crossed hrun true sample ⟨hthrough, hother⟩⟩

end CppTorrent.Swarm.Opening
