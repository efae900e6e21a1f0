import CppTorrent.Swarm.Model

/-! # What a step of the swarm can do

The downloads depend on a part of a client only, its `Core`: whether it is subscribed, whether the
remote peer chokes it, its active piece, whether it reads, and its strand. `Act` lists what a handler
can do to the core of its client and to the master peer, `Moves` what a step can do to the system.
`execute_act` and `step_moves` show that nothing else happens; the invariants are derived from these
two lists and do not unfold the handlers. -/

namespace CppTorrent.Swarm.Steps

open CppTorrent.Files.Blocks CppTorrent.Files.Storage CppTorrent.Swarm.Model

/-- The part of a client the downloads depend on. -/
@[ext] structure Core where
  isDisconnected : Bool
  peerChoking : Bool
  piece : Option Piece
  reading : Bool
  strand : List Handler

/-- The core of a client. -/
def core (c : Client) : Core :=
  ⟨c.isDisconnected, c.peerChoking, c.activePiece.map Prod.fst, c.reading, c.strand⟩

/-- Queues a handler. -/
def Core.post (h : Handler) (c : Core) : Core := { c with strand := c.strand ++ [h] }

/-- Queues a handler if the client is subscribed. -/
def Core.postIfSubscribed (h : Handler) (c : Core) : Core :=
  if c.isDisconnected then c else c.post h

/-- The effect of `Disconnect`. -/
def Core.disconnect (c : Core) : Core :=
  if c.isDisconnected then c else { c.post .cancelOperation with isDisconnected := true }

/-! ### The cores after the operations -/

@[simp] theorem core_send (msg : Message) (c : Client) : core (c.send msg) = core c := by
  unfold Client.send
  split_ifs <;> rfl

@[simp] theorem amInterested_send (msg : Message) (c : Client) :
    (c.send msg).amInterested = c.amInterested := by
  unfold Client.send
  split_ifs <;> rfl

@[simp] theorem core_post (h : Handler) (c : Client) : core (c.post h) = (core c).post h := rfl

@[simp] theorem core_postIfSubscribed (h : Handler) (c : Client) :
    core (c.postIfSubscribed h) = (core c).postIfSubscribed h := by
  unfold Client.postIfSubscribed Core.postIfSubscribed
  exact apply_ite core _ _ _

@[simp] theorem core_disconnect (c : Client) : core (disconnect c) = (core c).disconnect := by
  unfold disconnect Core.disconnect
  exact apply_ite core _ _ _

theorem piece_postIfSubscribed (h : Handler) (c : Core) : (c.postIfSubscribed h).piece = c.piece := by
  unfold Core.postIfSubscribed
  split_ifs
  · rfl
  · rfl

theorem piece_disconnect (c : Core) : c.disconnect.piece = c.piece := by
  unfold Core.disconnect
  split_ifs
  · rfl
  · rfl

@[simp] theorem core_sendInterested (c : Client) : core (sendInterested c) = core c :=
  core_send _ _

@[simp] theorem core_sendNotInterested (c : Client) : core (sendNotInterested c) = core c :=
  core_send _ _

@[simp] theorem core_sendUnchoke (c : Client) : core (sendUnchoke c) = core c := core_send _ _

@[simp] theorem core_sendChoke (c : Client) : core (sendChoke c) = core c := core_send _ _

theorem core_sendRequest (index begin_ length : ℕ) (c : Client) :
    core (sendRequest index begin_ length c) = core c := core_send _ _

theorem core_requestLoop (index : ℕ) : ∀ (reqCount pieceSize begin_ : ℕ) (c : Client),
    core (requestLoop index reqCount pieceSize begin_ c).1 = core c
  | 0, _, _, _ => rfl
  | reqCount + 1, pieceSize, begin_, c => by
    rw [requestLoop]
    split_ifs
    · rw [core_requestLoop, core_sendRequest]
    · rfl

theorem core_requestBlocks (pieceSize : ℕ) (piece : Piece) (begin_ : ℕ) (c : Client) :
    core (requestBlocks pieceSize piece begin_ c) = { core c with piece := some piece } := by
  have h := core_requestLoop piece.index requestMaxQueueSize pieceSize begin_ c
  unfold requestBlocks
  generalize requestLoop piece.index requestMaxQueueSize pieceSize begin_ c = res at h ⊢
  obtain ⟨c', rest, begin', more⟩ := res
  have h' := (core_sendRequest piece.index begin' rest c').trans h
  simp only [core, Core.mk.injEq] at h h' ⊢
  split_ifs <;> simp [*]

theorem core_cancelLoop (id : ℕ) : ∀ (fuel length begin_ : ℕ) (c : Client),
    core (cancelLoop id fuel length begin_ c) = core c
  | 0, _, _, _ => core_send _ _
  | fuel + 1, length, begin_, c => by
    rw [cancelLoop]
    split_ifs
    · rw [core_cancelLoop]
      exact core_send _ _
    · exact core_send _ _

/-! ### Handlers -/

/-- What `TryToRequestPiece` can do. The index of the piece it finds is cut to 32 bits. -/
inductive Attempt (cfg : Config) (m : Master) (c : Core) : Master → Core → Prop
  | keeps : Attempt cfg m c m c
  | chooses (i : ℕ) (hnone : c.piece = none) (hchoke : c.peerChoking = false) (hi : i < cfg.total)
      (hdone : i ∉ m.bitfield) (hfree : cfg.inEndGame m = false → i ∉ m.requestedPieces) :
      Attempt cfg m c (if cfg.inEndGame m then m else m.mark (i % 2 ^ 32))
        { c with piece := some (newPiece (i % 2 ^ 32) (blockCountOf (cfg.sizeOf (i % 2 ^ 32)))) }

/-- The messages on which `Disconnect` is called. -/
def rejects (cfg : Config) (c : Client) : Message → Bool
  | .bitfield payload => (cfg.total + 7) / 8 < payload.length
  | .request index _ _ => ¬c.peerInterested ∨ c.amChoking ∨ cfg.total ≤ index
  | .piece index _ _ => cfg.total ≤ index
  | .cancel index _ _ => cfg.total ≤ index
  | .invalid => true
  | _ => false

/-- The messages after which the client may look for a piece. -/
def isOffer : Message → Bool
  | .interested | .have_ _ | .bitfield _ => true
  | _ => false

/-- What `OnPieceBlock` has checked when it posts its handler. -/
structure Accepts (cfg : Config) (m : Master) (index : ℕ) (data : List UInt8) : Prop where
  lt_total : index < cfg.total
  length_le : data.length ≤ mostRequestSize
  requested : cfg.inEndGame m = false → index ∈ m.requestedPieces
  not_done : index ∉ m.bitfield

/-- What `handle_response` can do; `rejected` are the messages on which it calls `Disconnect`. -/
inductive Response (cfg : Config) (m : Master) (c : Core) (rejected : Message → Bool) :
    Message → Master → Core → Prop
  | ignores (msg : Message) : Response cfg m c rejected msg m c
  | choke : Response cfg m c rejected .choke m ({ c with peerChoking := true }.post .onChoked)
  | unchoke {m' : Master} {c' : Core} (h : Attempt cfg m { c with peerChoking := false } m' c') :
      Response cfg m c rejected .unchoke m' c'
  | offer {msg : Message} {m' : Master} {c' : Core} (hmsg : isOffer msg)
      (h : Attempt cfg m c m' c') : Response cfg m c rejected msg m' c'
  | rejects {msg : Message} (hmsg : rejected msg) : Response cfg m c rejected msg m c.disconnect
  | cancels (index begin_ : ℕ) (data : List UInt8) (hdone : index ∈ m.bitfield)
      (hreq : cfg.inEndGame m = false → index ∈ m.requestedPieces) :
      Response cfg m c rejected (.piece index begin_ data) m (c.post (.cancelPiece index))
  | accepts (index begin_ : ℕ) (data : List UInt8) (h : Accepts cfg m index data) :
      Response cfg m c rejected (.piece index begin_ data) m (c.post (.block index begin_ data))

/-- What a handler can do to its client, whose strand it has left, and to the master peer. -/
inductive Act (cfg : Config) (m : Master) (c : Core) (rejected : Message → Bool) :
    Handler → Master → Core → Prop
  | read : Act cfg m c rejected .read m { c with reading := true }
  | keepAliveFrame : Act cfg m c rejected (.message .keepAlive) m c
  | message {msg : Message} {m' : Master} {c' : Core} (h : Response cfg m c rejected msg m' c') :
      Act cfg m c rejected (.message msg) m' (c'.postIfSubscribed .read)
  | idle {h : Handler} (hnone : c.piece = none) (hh : h = .onChoked ∨ h = .pieceTimeout) :
      Act cfg m c rejected h m c
  | onChoked (piece : Piece) (h : c.piece = some piece) :
      Act cfg m c rejected .onChoked (m.unmark piece.index) { c with piece := none }
  | stores (piece : Piece) (index begin_ : ℕ) (data : List UInt8) (h : c.piece = some piece)
      (hslot : begin_ / mostRequestSize < piece.blocks.length) :
      Act cfg m c rejected (.block index begin_ data) m
        { c with piece := some (stored piece begin_ data) }
  | completes (piece : Piece) (index begin_ : ℕ) (data : List UInt8) (h : c.piece = some piece)
      (hslot : begin_ / mostRequestSize < piece.blocks.length)
      (hlast : piece.currentBlocksNum + 1 = piece.blockCount) :
      Act cfg m c rejected (.block index begin_ data)
        { m with jobs := m.jobs ++ [⟨index, stored piece begin_ data⟩] }
        ({ c with piece := some (movedFrom (stored piece begin_ data)) }.post .clearAndTry)
  | clearAndTry {m' : Master} {c' : Core} (h : Attempt cfg m { c with piece := none } m' c') :
      Act cfg m c rejected .clearAndTry m' c'
  | timeoutFired : Act cfg m c rejected .timeoutFired m (c.post .pieceTimeout)
  | pieceTimeout (piece : Piece) (h : c.piece = some piece) :
      Act cfg m c rejected .pieceTimeout (m.unmark piece.index)
        (if c.peerChoking then c.postIfSubscribed .tryToRequest
          else (c.postIfSubscribed .tryToRequest).post (.cancelPiece piece.index))
  | cancelPiece (piece : Piece) (h : c.piece = some piece) :
      Act cfg m c rejected (.cancelPiece piece.index) m { c with piece := none }
  | notActive {h : Handler} (id : ℕ) (hid : ∀ piece, c.piece = some piece → piece.index ≠ id)
      (hh : h = .cancelPiece id ∨ h = .cancelIfActive id) : Act cfg m c rejected h m c
  | tryToRequest {m' : Master} {c' : Core} (h : Attempt cfg m c m' c') :
      Act cfg m c rejected .tryToRequest m' c'
  | cancelIfActive (piece : Piece) (h : c.piece = some piece) :
      Act cfg m c rejected (.cancelIfActive piece.index) m (c.post (.cancelPiece piece.index))
  | keepAlive {m' : Master} {c' : Core} (h : Attempt cfg m c m' c') :
      Act cfg m c rejected .keepAlive m' c'
  | disconnect : Act cfg m c rejected .disconnect m c.disconnect
  | cancelOperation : Act cfg m c rejected .cancelOperation m { c with reading := false }

/-! ### The master peer after a handler -/

theorem attempt_master {cfg : Config} {m m' : Master} {c c' : Core} (h : Attempt cfg m c m' c') :
    m'.bitfield = m.bitfield ∧ m'.readyPiecesNum = m.readyPiecesNum ∧ m'.jobs = m.jobs := by
  cases h with
  | keeps => exact ⟨rfl, rfl, rfl⟩
  | chooses =>
    split_ifs
    · exact ⟨rfl, rfl, rfl⟩
    · exact ⟨rfl, rfl, rfl⟩

theorem response_master {cfg : Config} {m m' : Master} {c c' : Core} {rejected : Message → Bool}
    {msg : Message} (h : Response cfg m c rejected msg m' c') :
    m'.bitfield = m.bitfield ∧ m'.readyPiecesNum = m.readyPiecesNum ∧ m'.jobs = m.jobs := by
  cases h with
  | unchoke h => exact attempt_master h
  | offer _ h => exact attempt_master h
  | _ => exact ⟨rfl, rfl, rfl⟩

/-- A handler leaves the bitfield and the counter alone and queues at most the job of the active
piece. -/
theorem act_master {cfg : Config} {m m' : Master} {c c' : Core} {rejected : Message → Bool}
    {h : Handler} (hact : Act cfg m c rejected h m' c') :
    m'.bitfield = m.bitfield ∧ m'.readyPiecesNum = m.readyPiecesNum ∧
      (m'.jobs = m.jobs ∨ ∃ index begin_ data piece,
        h = .block index begin_ data ∧ c.piece = some piece ∧
        m'.jobs = m.jobs ++ [⟨index, stored piece begin_ data⟩]) := by
  cases hact with
  | message h =>
    obtain ⟨hbits, hready, hjobs⟩ := response_master h
    exact ⟨hbits, hready, .inl hjobs⟩
  | completes piece index begin_ data hpiece =>
    exact ⟨rfl, rfl, .inr ⟨index, begin_, data, piece, rfl, hpiece, rfl⟩⟩
  | clearAndTry h =>
    obtain ⟨hbits, hready, hjobs⟩ := attempt_master h
    exact ⟨hbits, hready, .inl hjobs⟩
  | tryToRequest h =>
    obtain ⟨hbits, hready, hjobs⟩ := attempt_master h
    exact ⟨hbits, hready, .inl hjobs⟩
  | keepAlive h =>
    obtain ⟨hbits, hready, hjobs⟩ := attempt_master h
    exact ⟨hbits, hready, .inl hjobs⟩
  | _ => exact ⟨rfl, rfl, .inl rfl⟩

theorem mem_jobs_of_act {cfg : Config} {m m' : Master} {c c' : Core} {rejected : Message → Bool}
    {h : Handler} (hact : Act cfg m c rejected h m' c') {req : WriteRequest} (hreq : req ∈ m'.jobs) :
    req ∈ m.jobs ∨ ∃ index begin_ data piece, h = .block index begin_ data ∧ c.piece = some piece ∧
      req = ⟨index, stored piece begin_ data⟩ := by
  obtain ⟨-, -, hjobs⟩ := act_master hact
  rcases hjobs with hjobs | ⟨index, begin_, data, piece, hblock, hpiece, hjobs⟩
  · exact .inl (hjobs ▸ hreq)
  · rw [hjobs] at hreq
    rcases List.mem_append.mp hreq with hreq | hreq
    · exact .inl hreq
    · exact .inr ⟨index, begin_, data, piece, hblock, hpiece, List.mem_singleton.mp hreq⟩

/-! ### The handlers act so -/

theorem mem_piecesIds {cfg : Config} {m : Master} {c : Client} {j : ℕ}
    (h : j ∈ piecesIds cfg m c) : ∃ i, i % 2 ^ 32 = j ∧
    i < cfg.total ∧ i ∉ m.bitfield ∧ (cfg.inEndGame m = false → i ∉ m.requestedPieces) := by
  obtain ⟨i, h, hmod⟩ := List.mem_map.mp h
  obtain ⟨hi, h⟩ := List.mem_filter.mp h
  obtain ⟨hdone, -, hreq⟩ := of_decide_eq_true h
  refine ⟨i, hmod, List.mem_range.mp hi, hdone, fun hend => ?_⟩
  rcases hreq with h | h
  · rw [hend] at h
    exact absurd h (by decide)
  · exact h

/-- **What `TryToRequestPiece` can do.** -/
theorem attempt_tryToRequestPiece (cfg : Config) (r : ℕ) (m : Master) (c : Client) :
    Attempt cfg m (core c) (tryToRequestPiece cfg r m c).1 (core (tryToRequestPiece cfg r m c).2) := by
  unfold tryToRequestPiece
  cases hact : c.activePiece with
  | some active =>
    obtain ⟨piece, begin_⟩ := active
    dsimp only
    split_ifs
    · exact .keeps
    · have hcore : core (requestBlocks (cfg.sizeOf piece.index) piece begin_ c) = core c := by
        rw [core_requestBlocks]
        simp [core, hact]
      rw [hcore]
      exact .keeps
  | none =>
    dsimp only
    split_ifs with hall hchoke
    · rw [core_sendNotInterested]
      exact .keeps
    · exact .keeps
    all_goals
      unfold choosePiece
      dsimp only
      split
      · next heq =>
        split at heq
        · cases heq
          simp only [core_sendInterested]
          exact .keeps
        · cases heq
      · next i m' heq =>
        split at heq
        · cases heq
        · next i' hget =>
          cases heq
          obtain ⟨j, rfl, hi, hdone, hfree⟩ := mem_piecesIds (List.mem_of_getElem? hget)
          rw [core_requestBlocks]
          simp only [core_sendInterested]
          exact .chooses j (by simp [core, hact]) (by simpa [core] using hchoke) hi hdone hfree

theorem attempt_of_eq {cfg : Config} {r : ℕ} {m m' : Master} {c c' : Client}
    (h : some (tryToRequestPiece cfg r m c) = some (m', c')) :
    Attempt cfg m (core c) m' (core c') := by
  have hatt := attempt_tryToRequestPiece cfg r m c
  rw [Option.some.inj h] at hatt
  exact hatt

/-- A client with an active piece keeps it. -/
theorem attempt_of_piece {cfg : Config} {m m' : Master} {c c' : Core} {piece : Piece}
    (h : c.piece = some piece) (hatt : Attempt cfg m c m' c') : m' = m ∧ c' = c := by
  cases hatt with
  | keeps => exact ⟨rfl, rfl⟩
  | chooses i hnone => rw [h] at hnone; cases hnone

/-- `OnPieceBlock` rejects, ignores, cancels or accepts a block. -/
theorem response_onPieceBlock (cfg : Config) (m : Master) (index begin_ : ℕ) (data : List UInt8)
    (c : Client) :
    Response cfg m (core c) (rejects cfg c) (.piece index begin_ data) m
      (core (onPieceBlock cfg m index begin_ data c)) := by
  unfold onPieceBlock
  split_ifs with htotal hlen hreq hdone
  · rw [core_disconnect]
    exact .rejects (by simpa [rejects] using htotal)
  · exact .ignores _
  · exact .ignores _
  · exact .cancels index begin_ data hdone fun hend => by
      by_contra hnot
      exact hreq ⟨by simp [hend], hnot⟩
  · exact .accepts index begin_ data ⟨by omega, by omega, fun hend => by
      by_contra hnot
      exact hreq ⟨by simp [hend], hnot⟩, hdone⟩

/-- **What `handle_response` can do.** -/
theorem response_handleResponse (cfg : Config) (r : ℕ) (m : Master) (c : Client) (msg : Message) :
    Response cfg m (core c) (rejects cfg c) msg (handleResponse cfg r m c msg).1
      (core (handleResponse cfg r m c msg).2) := by
  cases msg with
  | keepAlive => exact .ignores _
  | other => exact .ignores _
  | choke => exact .choke
  | unchoke => exact .unchoke (attempt_tryToRequestPiece cfg r m { c with peerChoking := false })
  | interested =>
    dsimp only [handleResponse]
    generalize hc : (if c.amChoking = true ∧ ¬c.isDisconnected = true then
      sendUnchoke { c with peerInterested := true } else { c with peerInterested := true }) = c'
    have hcore : core c' = core c := by
      rw [← hc]
      split_ifs
      · exact core_sendUnchoke _
      · rfl
    rw [← hcore]
    split_ifs
    · exact .ignores _
    · exact .offer rfl (attempt_tryToRequestPiece cfg r m c')
  | notInterested =>
    dsimp only [handleResponse]
    split_ifs
    · rw [core_sendChoke]
      exact .ignores _
    · exact .ignores _
  | have_ i =>
    dsimp only [handleResponse]
    split_ifs
    · exact .ignores _
    · exact .ignores _
    · exact .offer rfl (attempt_tryToRequestPiece cfg r m { c with pieces := insert i c.pieces })
  | bitfield payload =>
    dsimp only [handleResponse]
    split_ifs with hlong hmore
    · rw [core_disconnect]
      exact .rejects (by simpa [rejects] using hlong)
    · exact .offer rfl (core_sendInterested { c with pieces := c.pieces ∪ bitsOf cfg.total payload } ▸
        attempt_tryToRequestPiece cfg r m _)
    · exact .offer rfl (attempt_tryToRequestPiece cfg r m
        { c with pieces := c.pieces ∪ bitsOf cfg.total payload })
  | request index begin_ length | cancel index begin_ length =>
    dsimp only [handleResponse]
    split_ifs with hbad
    · rw [core_disconnect]
      exact .rejects (by simpa [rejects] using hbad)
    · exact .ignores _
  | piece index begin_ data => exact response_onPieceBlock cfg m index begin_ data c
  | invalid =>
    dsimp only [handleResponse]
    rw [core_disconnect]
    exact .rejects rfl

theorem core_doReadHeader (c : Client) : core (doReadHeader c) = (core c).postIfSubscribed .read :=
  core_postIfSubscribed .read c

theorem onMessage_of_ne {cfg : Config} {r : ℕ} {m : Master} {c : Client} {msg : Message}
    (h : msg ≠ .keepAlive) : onMessage cfg r m c msg =
      ((handleResponse cfg r m c msg).1, doReadHeader (handleResponse cfg r m c msg).2) := by
  cases msg <;> first | rfl | exact absurd rfl h

theorem act_onMessage (cfg : Config) (r : ℕ) (m : Master) (c : Client) (msg : Message) :
    Act cfg m (core c) (rejects cfg c) (.message msg) (onMessage cfg r m c msg).1
      (core (onMessage cfg r m c msg).2) := by
  by_cases hk : msg = .keepAlive
  · subst hk
    exact .keepAliveFrame
  · rw [onMessage_of_ne hk, core_doReadHeader]
    exact .message (response_handleResponse cfg r m c msg)

theorem act_storeBlock {cfg : Config} {r : ℕ} {m m' : Master} {c c' : Client} {index begin_ : ℕ}
    {data : List UInt8} (h : storeBlock cfg r m c index begin_ data = some (m', c')) :
    Act cfg m (core c) (rejects cfg c) (.block index begin_ data) m' (core c') := by
  unfold storeBlock at h
  cases hact : c.activePiece with
  | none => rw [hact] at h; cases h
  | some active =>
    obtain ⟨piece, offset⟩ := active
    have hpiece : (core c).piece = some piece := by simp [core, hact]
    rw [hact] at h
    dsimp only at h
    split_ifs at h with hslot hlast hmore
    · cases h
      exact .completes piece index begin_ data hpiece hslot hlast
    · have hpiece' : (core { c with activePiece := some (stored piece begin_ data, offset) }).piece =
          some (stored piece begin_ data) := rfl
      obtain ⟨rfl, hcore⟩ := attempt_of_piece hpiece' (attempt_of_eq h)
      rw [hcore]
      exact .stores piece index begin_ data hpiece hslot
    · cases h
      exact .stores piece index begin_ data hpiece hslot

theorem isActive_eq_true_iff {id : ℕ} {c : Client} :
    c.isActive id = true ↔ ∃ piece, (core c).piece = some piece ∧ piece.index = id := by
  unfold Client.isActive
  cases hact : c.activePiece with
  | none => simp [core, hact]
  | some active => simp [core, hact]

/-- **What a handler can do.** -/
theorem act_execute {cfg : Config} {r : ℕ} {m m' : Master} {c c' : Client} {h : Handler}
    (hex : execute cfg r m c h = some (m', c')) :
    Act cfg m (core c) (rejects cfg c) h m' (core c') := by
  cases h with
  | read => cases hex; exact .read
  | message msg =>
    have heq := act_onMessage cfg r m c msg
    rw [Option.some.inj hex] at heq
    exact heq
  | onChoked =>
    dsimp only [execute] at hex
    cases hact : c.activePiece with
    | none => rw [hact] at hex; cases hex; exact .idle (by simp [core, hact]) (.inl rfl)
    | some active => rw [hact] at hex; cases hex; exact .onChoked active.1 (by simp [core, hact])
  | block index begin_ data => exact act_storeBlock hex
  | clearAndTry => exact .clearAndTry (attempt_of_eq hex)
  | timeoutFired => cases hex; exact .timeoutFired
  | pieceTimeout =>
    dsimp only [execute] at hex
    cases hact : c.activePiece with
    | none => rw [hact] at hex; cases hex; exact .idle (by simp [core, hact]) (.inr rfl)
    | some active =>
      rw [hact] at hex
      have hcore : core c' = if (core c).peerChoking then (core c).postIfSubscribed .tryToRequest
          else ((core c).postIfSubscribed .tryToRequest).post (.cancelPiece active.1.index) := by
        have hp : (c.postIfSubscribed .tryToRequest).peerChoking = c.peerChoking := by
          unfold Client.postIfSubscribed
          split_ifs <;> rfl
        cases hex
        rw [hp, ← core_postIfSubscribed, ← core_post]
        exact apply_ite core _ _ _
      cases hex
      rw [hcore]
      exact .pieceTimeout active.1 (by simp [core, hact])
  | cancelPiece id =>
    dsimp only [execute] at hex
    split_ifs at hex with hact
    · obtain ⟨piece, hpiece, rfl⟩ := isActive_eq_true_iff.mp hact
      cases hex
      have hloop := core_cancelLoop piece.index (cfg.sizeOf piece.index) (cfg.sizeOf piece.index) 0 c
      have hcore : core { cancelLoop piece.index (cfg.sizeOf piece.index) (cfg.sizeOf piece.index) 0 c
          with activePiece := none } = { core c with piece := none } := by
        rw [← hloop]
        rfl
      rw [hcore]
      exact .cancelPiece piece hpiece
    · cases hex
      exact .notActive id (fun piece h1 h2 => hact (isActive_eq_true_iff.mpr ⟨piece, h1, h2⟩))
        (.inl rfl)
  | tryToRequest => exact .tryToRequest (attempt_of_eq hex)
  | cancelIfActive id =>
    dsimp only [execute] at hex
    split_ifs at hex with hact
    · obtain ⟨piece, hpiece, rfl⟩ := isActive_eq_true_iff.mp hact
      obtain ⟨rfl, hcore⟩ := attempt_of_piece
        (c := (core c).post (.cancelPiece piece.index)) hpiece (attempt_of_eq hex)
      rw [hcore]
      exact .cancelIfActive piece hpiece
    · cases hex
      exact .notActive id (fun piece h1 h2 => hact (isActive_eq_true_iff.mpr ⟨piece, h1, h2⟩))
        (.inr rfl)
  | keepAlive =>
    dsimp only [execute] at hex
    have hsend := core_send .keepAlive c
    split_ifs at hex
    · exact .keepAlive (hsend ▸ attempt_of_eq hex)
    · cases hex
      rw [hsend]
      exact .keepAlive .keeps
    · cases hex
      exact .keepAlive .keeps
  | disconnect =>
    cases hex
    rw [core_disconnect]
    exact .disconnect
  | cancelOperation => cases hex; exact .cancelOperation

/-! ### Steps -/

variable {n : ℕ}

/-- The core of a client of the system. -/
def coreOf (s : State n) (p : Fin n) : Core := core (s.clients p)

/-- What the socket and the timers of a client can queue. -/
inductive Queued (c : Core) : Core → Prop
  | message (msg : Message) (h : c.reading = true) :
      Queued c ({ c with reading := false }.post (.message msg))
  | timeout : Queued c (c.post .timeoutFired)
  | keepAlive : Queued c (c.post .keepAlive)
  | disconnect : Queued c (c.post .disconnect)

/-- What can be queued on the strand of another client. -/
inductive Told (cfg : Config) (c : Core) : Core → Prop
  | nothing : Told cfg c c
  | tryToRequest : Told cfg c (c.post .tryToRequest)
  | cancelIfActive (i : ℕ) (h : cfg.optimal = true) : Told cfg c (c.post (.cancelIfActive i))

/-- The events that come from a socket or a timer. -/
def isQueued : Event n → Bool
  | .arrive _ _ | .expire _ | .keepAlive _ | .fail _ => true
  | .run _ _ | .work _ _ => false

/-- What a step can do. -/
inductive Moves (cfg : Config) (s : State n) : Event n → State n → Prop
  | queues {e : Event n} {s' : State n} (p : Fin n) (hp : Queued (coreOf s p) (coreOf s' p))
      (hothers : ∀ q, q ≠ p → coreOf s' q = coreOf s q) (hmaster : s'.master = s.master)
      (hdisk : s'.disk = s.disk) (he : isQueued e = true) : Moves cfg s e s'
  | run {s' : State n} (p : Fin n) (r : ℕ) (h : Handler) (rest : List Handler)
      (hstrand : (s.clients p).strand = h :: rest)
      (hact : Act cfg s.master { coreOf s p with strand := rest } (rejects cfg (s.clients p)) h
        s'.master (coreOf s' p))
      (hothers : ∀ q, q ≠ p → Told cfg (coreOf s q) (coreOf s' q)) (hdisk : s'.disk = s.disk) :
      Moves cfg s (.run p r) s'
  | invalid {s' : State n} (k : ℕ) (sorted : List Block) (req : WriteRequest)
      (hreq : s.master.jobs[k]? = some req) (hsort : sorts req.piece.blocks sorted = true)
      (hvalid : arePieceValid cfg req.pieceIndex sorted = false)
      (hcores : ∀ q, coreOf s' q = coreOf s q) (hdisk : s'.disk = s.disk)
      (hmaster : s'.master =
        Master.unmark req.pieceIndex { s.master with jobs := s.master.jobs.eraseIdx k }) :
      Moves cfg s (.work k sorted) s'
  | valid {s' : State n} (k : ℕ) (sorted : List Block) (req : WriteRequest)
      (hreq : s.master.jobs[k]? = some req) (hsort : sorts req.piece.blocks sorted = true)
      (hvalid : arePieceValid cfg req.pieceIndex sorted = true)
      (hdisk : writePieceToFile cfg.manager s.disk { req.piece with blocks := sorted } = .ok s'.disk)
      (hcores : ∀ q, Told cfg (coreOf s q) (coreOf s' q))
      (hbits : s'.master.bitfield = insert req.pieceIndex s.master.bitfield)
      (hreqs : s'.master.requestedPieces = s.master.requestedPieces.erase req.pieceIndex)
      (hjobs : s'.master.jobs = s.master.jobs.eraseIdx k)
      (hready : s'.master.readyPiecesNum = s.master.readyPiecesNum + 1) :
      Moves cfg s (.work k sorted) s'

theorem coreOf_set_self (s : State n) (p : Fin n) (c : Client) : coreOf (s.set p c) p = core c := by
  simp [coreOf, State.set]

theorem coreOf_set_of_ne (s : State n) {p q : Fin n} (c : Client) (h : q ≠ p) :
    coreOf (s.set p c) q = coreOf s q := by
  simp [coreOf, State.set, Function.update_of_ne h]

theorem moves_set {cfg : Config} {s : State n} {e : Event n} {p : Fin n} {c : Client}
    (h : Queued (coreOf s p) (core c)) (he : isQueued e = true) : Moves cfg s e (s.set p c) :=
  .queues p (coreOf_set_self s p c ▸ h) (fun _ hq => coreOf_set_of_ne s c hq) rfl rfl he

theorem told_postIfSubscribed {cfg : Config} {h : Handler} {c : Core}
    (hpost : Told cfg c (c.post h)) : Told cfg c (c.postIfSubscribed h) := by
  unfold Core.postIfSubscribed
  split_ifs
  · exact .nothing
  · exact hpost

theorem moves_runFirst {cfg : Config} {s s' : State n} {p : Fin n} {r : ℕ}
    (h : runFirst cfg p r s = some s') : Moves cfg s (.run p r) s' := by
  unfold runFirst at h
  cases hs : (s.clients p).strand with
  | nil => rw [hs] at h; cases h
  | cons hd rest =>
    rw [hs] at h
    obtain ⟨⟨m, c⟩, hex, heq⟩ := Option.map_eq_some_iff.mp h
    have hact := act_execute hex
    split_ifs at heq
    · subst heq
      refine .run p r hd rest hs ?_ (fun q hq => ?_) rfl
      · have hcore : coreOf (tryToRequestAgain p { s.set p c with master := m }) p = core c := by
          simp [coreOf, tryToRequestAgain, State.set]
        rw [hcore]
        exact hact
      · have hcore : coreOf (tryToRequestAgain p { s.set p c with master := m }) q =
            (coreOf s q).postIfSubscribed .tryToRequest := by
          simp only [coreOf, tryToRequestAgain, State.set, if_neg hq, core_postIfSubscribed,
            Function.update_of_ne hq]
        rw [hcore]
        exact told_postIfSubscribed .tryToRequest
    · subst heq
      refine .run p r hd rest hs ?_ (fun q hq => ?_) rfl
      · have hcore : coreOf { s.set p c with master := m } p = core c := coreOf_set_self s p c
        rw [hcore]
        exact hact
      · have hcore : coreOf { s.set p c with master := m } q = coreOf s q := coreOf_set_of_ne s c hq
        rw [hcore]
        exact .nothing

/-- What `SetPiece` changes. -/
theorem setPiece_spec (cfg : Config) (i : ℕ) (s : State n) :
    (setPiece cfg i s).disk = s.disk ∧
      (setPiece cfg i s).master.bitfield = insert i s.master.bitfield ∧
      (setPiece cfg i s).master.requestedPieces = s.master.requestedPieces ∧
      (setPiece cfg i s).master.jobs = s.master.jobs ∧
      (setPiece cfg i s).master.readyPiecesNum = s.master.readyPiecesNum + 1 ∧
      ∀ q, Told cfg (coreOf s q) (coreOf (setPiece cfg i s) q) := by
  have hcore : ∀ q, coreOf (sendHaveToAll i
      { s with master := { s.master with bitfield := insert i s.master.bitfield } }) q =
      coreOf s q := by
    intro q
    simp only [coreOf, sendHaveToAll]
    split_ifs
    · exact core_send _ _
    · rfl
  unfold setPiece onPieceDownloaded
  dsimp only
  split_ifs with hopt hend hpercent
  · refine ⟨rfl, rfl, rfl, rfl, rfl, fun q => ?_⟩
    have htold : Told cfg (coreOf s q) ((coreOf s q).postIfSubscribed (.cancelIfActive i)) :=
      told_postIfSubscribed (.cancelIfActive i hopt)
    nth_rewrite 2 [← hcore q] at htold
    unfold coreOf at htold
    rw [← core_postIfSubscribed] at htold
    exact htold
  · exact ⟨rfl, rfl, rfl, rfl, rfl, fun q => (hcore q).symm ▸ .nothing⟩
  · exact ⟨rfl, rfl, rfl, rfl, rfl, fun q => (hcore q).symm ▸ .nothing⟩
  · exact ⟨rfl, rfl, rfl, rfl, rfl, fun q => (hcore q).symm ▸ .nothing⟩

/-- **What a step can do.** -/
theorem step_moves {cfg : Config} {s s' : State n} {e : Event n} (h : step cfg s e = some s') :
    Moves cfg s e s' := by
  cases e with
  | arrive p msg =>
    dsimp only [step] at h
    split_ifs at h with hread
    cases h
    exact moves_set (.message msg hread) rfl
  | expire p =>
    dsimp only [step] at h
    split_ifs at h
    cases h
    exact moves_set .timeout rfl
  | keepAlive p => cases h; exact moves_set .keepAlive rfl
  | fail p => cases h; exact moves_set .disconnect rfl
  | run p r => exact moves_runFirst h
  | work k sorted =>
    dsimp only [step] at h
    cases hreq : s.master.jobs[k]? with
    | none => rw [hreq] at h; cases h
    | some req =>
      rw [hreq] at h
      dsimp only [downloadPiece] at h
      split_ifs at h with hsort hvalid
      · split at h
        · cases h
        · next disk hwrite =>
          cases h
          obtain ⟨h1, h2, h3, h4, h5, h6⟩ := setPiece_spec cfg req.pieceIndex
            { s with master := { s.master with jobs := s.master.jobs.eraseIdx k }, disk := disk }
          exact .valid k sorted req hreq hsort hvalid (by rw [hwrite, h1]) h6 h2
            (congrArg (Finset.erase · req.pieceIndex) h3) h4 h5
      · cases h
        exact .invalid k sorted req hreq hsort (by simpa using hvalid) (fun _ => rfl) rfl rfl

/-- **The rule for invariants of the clients**: what is kept by everything that can be queued on a
strand, and by the handler that runs, is kept by the step. -/
theorem clients_step {cfg : Config} {s s' : State n} {e : Event n} (P : Core → Prop)
    (hs : ∀ p, P (coreOf s p)) (hqueued : ∀ c c', P c → Queued c c' → P c')
    (htold : ∀ c c', P c → Told cfg c c' → P c')
    (hact : ∀ p r h rest, e = .run p r → (coreOf s p).strand = h :: rest →
      Act cfg s.master { coreOf s p with strand := rest } (rejects cfg (s.clients p)) h s'.master
        (coreOf s' p) → P (coreOf s' p))
    (h : step cfg s e = some s') (q : Fin n) : P (coreOf s' q) := by
  cases step_moves h with
  | queues p hp hothers =>
    by_cases hq : q = p
    · exact hq ▸ hqueued _ _ (hs p) hp
    · exact (hothers q hq).symm ▸ hs q
  | run p r hd rest hstrand hrun hothers =>
    by_cases hq : q = p
    · exact hq ▸ hact p r hd rest rfl hstrand hrun
    · exact htold _ _ (hs q) (hothers q hq)
  | invalid k sorted req hreq hsort hvalid hcores => exact (hcores q).symm ▸ hs q
  | valid k sorted req hreq hsort hvalid hdisk hcores => exact htold _ _ (hs q) (hcores q)

end CppTorrent.Swarm.Steps
