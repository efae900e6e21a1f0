import CppTorrent.Swarm.PeerPieces
import CppTorrent.Lib.Runs

/-! # A client from its construction on

The bitfield of a remote peer has no bits until `access` gives it as many as the master peer has, and
`ChoosePiece` combines the two bitfields, which must have the same size. Any client can be told to look
for a piece at any time, also before its handshake; it does not come to a choice then because the
remote peer is still choking: an `unchoke` is read after `access` only (`sized_run`).

The other clients and the write jobs are only seen through what they do to the master peer and to the
strand of the client. -/

namespace CppTorrent.Swarm.Lifecycle

open CppTorrent.Files.Blocks CppTorrent.Swarm.Model CppTorrent.Swarm.Steps CppTorrent.Swarm.PeerPieces
open CppTorrent.Lib.Runs

/-- `bittorrent_constants::MAX_CONNECT_ATTEMPTS`. -/
def maxConnectAttempts : ℕ := 4

/-- What a client waits for. -/
inductive Phase where
  /-- `Connect` -/
  | connecting
  /-- the `Send` of `send_handshake` -/
  | sendingHandshake
  /-- the `Read` of `send_handshake` -/
  | readingHandshake
  /-- the `verify_handshake` that `Process` has posted -/
  | verifying
  /-- the `Send` of `verify_handshake` -/
  | answering
  /-- `access` has been called -/
  | accessed
  /-- the connection has been given up -/
  | failed
  deriving DecidableEq

/-- A client, the master peer, and the sizes of their bitfields. -/
structure Life where
  phase : Phase
  connectAttempts : ℕ
  peerBits : ℕ
  masterBits : ℕ
  client : Client
  master : Master

/-- What can happen next. -/
inductive LifeEvent where
  /-- the operation on the socket that the client waits for succeeds or fails -/
  | socket (ok : Bool)
  /-- a handshake is there, and `check_handshake` accepts it or not -/
  | handshake (correct : Bool)
  | arrive (msg : Message)
  | expire
  | keepAlive
  | fail
  | run (r : ℕ)
  /-- another client or a write job calls `TryToRequestAgain` -/
  | tryToRequestAgain
  /-- a write job calls `CancelPiece` -/
  | cancelPiece (i : ℕ)
  /-- the others change the master peer -/
  | done (i : ℕ)
  | mark (i : ℕ)
  | unmark (i : ℕ)
  | endGame
  /-- `MasterPeer::InitiateJob` -/
  | initiateJob

/-- `PeerClient::try_again_connect`. -/
def tryAgainConnect (s : Life) : Life :=
  if s.client.isDisconnected then { s with phase := .failed }
  else if s.connectAttempts - 1 = 0 then
    { s with phase := .failed, connectAttempts := 0, client := disconnect s.client }
  else { s with phase := .connecting, connectAttempts := s.connectAttempts - 1 }

/-- `PeerClient::access`: the peer bitfield gets the size of the master bitfield. -/
def accessClient (s : Life) : Life :=
  let c := Client.send (.bitfield (getCast s.masterBits s.master.bitfield))
    { s.client with pieces := ∅ }
  { s with phase := .accessed, peerBits := s.masterBits, client := doReadHeader c }

/-- An operation on the socket ends. -/
def onSocket (s : Life) (ok : Bool) : Option Life :=
  match s.phase with
  | .connecting =>
    some (if ok then { s with phase := .sendingHandshake } else tryAgainConnect s)
  | .sendingHandshake =>
    some (if ok then { s with phase := .readingHandshake } else tryAgainConnect s)
  | .readingHandshake => if ok then none else some (tryAgainConnect s)
  | .answering =>
    some (if ok then accessClient s else { s with phase := .failed, client := disconnect s.client })
  | _ => none

/-- A handshake is there. -/
def onHandshake (s : Life) (correct : Bool) : Option Life :=
  match s.phase with
  | .readingHandshake => some (if correct then accessClient s else { s with phase := .failed })
  | .verifying =>
    some (if correct then { s with phase := .answering }
      else { s with phase := .failed, client := disconnect s.client })
  | _ => none

/-- Posts a handler. -/
def Life.post (h : Handler) (s : Life) : Life := { s with client := s.client.post h }

/-- One step of the client and of its surroundings. -/
def lifeStep (cfg : Config) (s : Life) : LifeEvent → Option Life
  | .socket ok => onSocket s ok
  | .handshake correct => onHandshake s correct
  | .arrive msg =>
    if s.client.reading then
      some (Life.post (.message msg) { s with client := { s.client with reading := false } })
    else none
  | .expire =>
    if s.client.waiting then
      some (Life.post .timeoutFired { s with client := { s.client with waiting := false } })
    else none
  | .keepAlive => some (s.post .keepAlive)
  | .fail => some (s.post .disconnect)
  | .run r =>
    match s.client.strand with
    | [] => none
    | h :: rest =>
      (execute cfg r s.master { s.client with strand := rest } h).map fun (m, c) =>
        { s with master := m, client := c }
  | .tryToRequestAgain => some (s.post .tryToRequest)
  | .cancelPiece i => some (s.post (.cancelIfActive i))
  | .done i =>
    if i < s.masterBits then
      some { s with master := { s.master with bitfield := insert i s.master.bitfield } }
    else none
  | .mark i => some { s with master := s.master.mark i }
  | .unmark i => some { s with master := s.master.unmark i }
  | .endGame => some { s with master := { s.master with endGame := true } }
  | .initiateJob => some { s with masterBits := cfg.total }

/-- A client that has just been constructed, with a socket that is connected already or without; the
constructor of the master peer has sized its bitfield. -/
def constructed (cfg : Config) (incoming : Bool) (m : Master) : Life where
  phase := if incoming then .verifying else .connecting
  connectAttempts := maxConnectAttempts
  peerBits := 0
  masterBits := cfg.total
  client := ⟨false, true, false, true, false, ∅, none, false, false, [], []⟩
  master := m

/-! ### Before `access` -/

/-- The handlers that can be queued before `access`. -/
def beforeAccess : Handler → Bool
  | .read | .message _ => false
  | _ => true

/-- A client before `access` does not read, and its remote peer is choking. -/
structure Before (c : Core) : Prop where
  reading : c.reading = false
  choking : c.peerChoking = true
  strand : ∀ h ∈ c.strand, beforeAccess h = true

theorem Before.post {c : Core} {h : Handler} (hc : Before c) (hh : beforeAccess h = true) :
    Before (c.post h) := by
  refine ⟨hc.reading, hc.choking, fun h' hmem => ?_⟩
  rcases List.mem_append.mp hmem with hmem | hmem
  · exact hc.strand h' hmem
  · rw [List.mem_singleton.mp hmem]
    exact hh

theorem Before.postIfSubscribed {c : Core} {h : Handler} (hc : Before c) (hh : beforeAccess h = true) :
    Before (c.postIfSubscribed h) := by
  unfold Core.postIfSubscribed
  split_ifs
  · exact hc
  · exact hc.post hh

theorem Before.disconnect {c : Core} (hc : Before c) : Before c.disconnect := by
  unfold Core.disconnect
  split_ifs
  · exact hc
  · have hpost := hc.post (h := .cancelOperation) rfl
    exact ⟨hpost.reading, hpost.choking, hpost.strand⟩

/-- Before `access` a client looks for no piece. -/
theorem Before.attempt {cfg : Config} {m m' : Master} {c c' : Core} (hc : Before c)
    (h : Attempt cfg m c m' c') : Before c' := by
  cases h with
  | keeps => exact hc
  | chooses i hnone hchoke =>
    rw [hc.choking] at hchoke
    cases hchoke

theorem Before.act {cfg : Config} {m m' : Master} {c c' : Core} {rejected : Message → Bool}
    {h : Handler} (hc : Before c) (hh : beforeAccess h = true) (hact : Act cfg m c rejected h m' c') :
    Before c' := by
  cases hact with
  | read => cases hh
  | keepAliveFrame => cases hh
  | message => cases hh
  | idle => exact hc
  | onChoked => exact ⟨hc.reading, hc.choking, hc.strand⟩
  | stores => exact ⟨hc.reading, hc.choking, hc.strand⟩
  | completes =>
    refine Before.post ⟨hc.reading, hc.choking, hc.strand⟩ rfl
  | clearAndTry hatt =>
    have hb : Before { c with piece := none } := ⟨hc.reading, hc.choking, hc.strand⟩
    exact hb.attempt hatt
  | timeoutFired => exact hc.post rfl
  | pieceTimeout =>
    rw [hc.choking, if_pos rfl]
    exact hc.postIfSubscribed rfl
  | cancelPiece => exact ⟨hc.reading, hc.choking, hc.strand⟩
  | notActive => exact hc
  | tryToRequest hatt => exact hc.attempt hatt
  | cancelIfActive => exact hc.post rfl
  | keepAlive hatt => exact hc.attempt hatt
  | disconnect => exact hc.disconnect
  | cancelOperation => exact ⟨rfl, hc.choking, hc.strand⟩

/-! ### The sizes of the bitfields -/

/-- The master bitfield has a bit for every piece, and the peer bitfield has from `access` on. -/
structure Sized (cfg : Config) (s : Life) : Prop where
  master : s.masterBits = cfg.total
  peer : s.phase = .accessed → s.peerBits = cfg.total
  before : s.phase ≠ .accessed → Before (core s.client)
  pieces : s.client.pieces ⊆ Finset.range cfg.total

theorem sized_constructed (cfg : Config) (incoming : Bool) (m : Master) :
    Sized cfg (constructed cfg incoming m) := by
  refine ⟨rfl, fun h => ?_, fun _ => ⟨rfl, rfl, fun h hmem => by cases hmem⟩, Finset.empty_subset _⟩
  cases incoming <;> cases h

/-- Only the client changes, and what is queued can be queued before `access`. -/
theorem Sized.client {cfg : Config} {s : Life} {c : Client} (hs : Sized cfg s)
    (hpieces : c.pieces ⊆ Finset.range cfg.total)
    (hbefore : Before (core s.client) → Before (core c)) : Sized cfg { s with client := c } :=
  ⟨hs.master, hs.peer, fun h => hbefore (hs.before h), hpieces⟩

theorem Sized.post {cfg : Config} {s : Life} {h : Handler} (hs : Sized cfg s)
    (hh : beforeAccess h = true) : Sized cfg (s.post h) :=
  hs.client hs.pieces fun hb => hb.post hh

theorem Sized.moveOn {cfg : Config} {s : Life} {phase : Phase} {k : ℕ} (hs : Sized cfg s)
    (hbefore : s.phase ≠ .accessed) (hphase : phase ≠ .accessed) :
    Sized cfg { s with phase := phase, connectAttempts := k } :=
  ⟨hs.master, fun h => absurd h hphase, fun _ => hs.before hbefore, hs.pieces⟩

theorem Sized.giveUp {cfg : Config} {s : Life} {k : ℕ} (hs : Sized cfg s)
    (hbefore : s.phase ≠ .accessed) :
    Sized cfg { s with phase := .failed, connectAttempts := k, client := disconnect s.client } := by
  refine ⟨hs.master, nofun, fun _ => ?_, (pieces_disconnect _).trans_subset hs.pieces⟩
  change Before (core (disconnect s.client))
  rw [core_disconnect]
  exact (hs.before hbefore).disconnect

theorem Sized.tryAgainConnect {cfg : Config} {s : Life} (hs : Sized cfg s)
    (hbefore : s.phase ≠ .accessed) : Sized cfg (tryAgainConnect s) := by
  unfold Lifecycle.tryAgainConnect
  split_ifs
  · exact hs.moveOn hbefore nofun
  · exact hs.giveUp hbefore
  · exact hs.moveOn hbefore nofun

/-- Before `access` an operation of the socket moves the client on, or it tries again. -/
theorem Sized.onOperation {cfg : Config} {s : Life} (hs : Sized cfg s) (hbefore : s.phase ≠ .accessed)
    (ok : Bool) (phase : Phase) (hphase : phase ≠ .accessed) :
    Sized cfg (if ok then { s with phase := phase } else Lifecycle.tryAgainConnect s) := by
  split_ifs
  · exact hs.moveOn (k := s.connectAttempts) hbefore hphase
  · exact hs.tryAgainConnect hbefore

theorem Sized.access {cfg : Config} {s : Life} (hs : Sized cfg s) : Sized cfg (accessClient s) := by
  refine ⟨hs.master, fun _ => hs.master, fun h => absurd rfl h, ?_⟩
  refine (pieces_postIfSubscribed .read _).trans_subset ?_
  exact (pieces_send _ _).trans_subset (Finset.empty_subset _)

theorem sized_onSocket {cfg : Config} {s s' : Life} {ok : Bool} (hs : Sized cfg s)
    (h : onSocket s ok = some s') : Sized cfg s' := by
  have hb : s.phase ≠ .accessed := by
    intro hp
    rw [onSocket, hp] at h
    cases h
  unfold onSocket at h
  cases hp : s.phase with
  | connecting =>
    rw [hp] at h
    obtain rfl := Option.some.inj h
    exact hs.onOperation hb ok .sendingHandshake nofun
  | sendingHandshake =>
    rw [hp] at h
    obtain rfl := Option.some.inj h
    exact hs.onOperation hb ok .readingHandshake nofun
  | readingHandshake =>
    rw [hp] at h
    dsimp only at h
    split_ifs at h
    obtain rfl := Option.some.inj h
    exact hs.tryAgainConnect hb
  | answering =>
    rw [hp] at h
    obtain rfl := Option.some.inj h
    split_ifs
    · exact hs.access
    · exact hs.giveUp (k := s.connectAttempts) hb
  | _ => rw [hp] at h; cases h

theorem sized_onHandshake {cfg : Config} {s s' : Life} {correct : Bool} (hs : Sized cfg s)
    (h : onHandshake s correct = some s') : Sized cfg s' := by
  have hb : s.phase ≠ .accessed := by
    intro hp
    rw [onHandshake, hp] at h
    cases h
  unfold onHandshake at h
  cases hp : s.phase with
  | readingHandshake =>
    rw [hp] at h
    obtain rfl := Option.some.inj h
    split_ifs
    · exact hs.access
    · exact hs.moveOn (k := s.connectAttempts) hb nofun
  | verifying =>
    rw [hp] at h
    obtain rfl := Option.some.inj h
    split_ifs
    · exact hs.moveOn (k := s.connectAttempts) hb nofun
    · exact hs.giveUp (k := s.connectAttempts) hb
  | _ => rw [hp] at h; cases h

/-- **A step keeps the sizes.** -/
theorem sized_step {cfg : Config} {s s' : Life} {e : LifeEvent} (hs : Sized cfg s)
    (h : lifeStep cfg s e = some s') : Sized cfg s' := by
  cases e with
  | socket ok => exact sized_onSocket hs h
  | handshake correct => exact sized_onHandshake hs h
  | arrive msg =>
    dsimp only [lifeStep] at h
    split_ifs at h with hread
    cases h
    refine hs.client hs.pieces fun hb => ?_
    have hnot := hb.reading
    change s.client.reading = false at hnot
    rw [hread] at hnot
    cases hnot
  | expire =>
    dsimp only [lifeStep] at h
    split_ifs at h
    cases h
    exact hs.client hs.pieces fun hb => hb.post rfl
  | keepAlive => cases h; exact hs.post rfl
  | fail => cases h; exact hs.post rfl
  | run r =>
    dsimp only [lifeStep] at h
    cases hstrand : s.client.strand with
    | nil => rw [hstrand] at h; cases h
    | cons hd rest =>
      rw [hstrand] at h
      obtain ⟨⟨m, c⟩, hex, rfl⟩ := Option.map_eq_some_iff.mp h
      have hpieces := pieces_execute (c := { s.client with strand := rest }) hs.pieces hex
      refine ⟨hs.master, hs.peer, fun hphase => ?_, hpieces⟩
      have hb := hs.before hphase
      have hmem : ∀ h' ∈ hd :: rest, beforeAccess h' = true := hstrand ▸ hb.strand
      have hrest : Before (core { s.client with strand := rest }) :=
        ⟨hb.reading, hb.choking, fun h' hm => hmem h' (List.mem_cons_of_mem hd hm)⟩
      exact hrest.act (hmem hd List.mem_cons_self) (act_execute hex)
  | tryToRequestAgain => cases h; exact hs.post rfl
  | cancelPiece i => cases h; exact hs.post rfl
  | done i =>
    dsimp only [lifeStep] at h
    split_ifs at h
    cases h
    exact ⟨hs.master, hs.peer, hs.before, hs.pieces⟩
  | mark i => cases h; exact ⟨hs.master, hs.peer, hs.before, hs.pieces⟩
  | unmark i => cases h; exact ⟨hs.master, hs.peer, hs.before, hs.pieces⟩
  | endGame => cases h; exact ⟨hs.master, hs.peer, hs.before, hs.pieces⟩
  | initiateJob => cases h; exact ⟨rfl, hs.peer, hs.before, hs.pieces⟩

/-- **The sizes along every run.** -/
theorem sized_run {cfg : Config} {incoming : Bool} {m : Master} {es : List LifeEvent} {s : Life}
    (h : run (lifeStep cfg) (constructed cfg incoming m) es = some s) : Sized cfg s :=
  invariant_of_run (Sized cfg) (fun _ _ => True) (fun _ _ _ hs _ hstep => sized_step hs hstep)
    (sized_constructed cfg incoming m) (along_true _ _) h

end CppTorrent.Swarm.Lifecycle
