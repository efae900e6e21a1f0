import CppTorrent.Files.Storage
import CppTorrent.Lib.Runs

/-! # Downloading from a swarm

The peer clients of one torrent, the master peer they share, the queue of write jobs and the disk.

Everything that touches a client runs on its strand, one handler after the other, in the order in
which the handlers were queued. `Handler` has the handlers that `Post` queues and those that the
socket and the timers queue when an operation ends. What a handler does to its client and to the
master peer is `execute`; the timeout of a piece and the end of a write job also queue handlers on
the strands of the other subscribed clients.

A step of the system is an `Event`: a message arrives, a timer or the connection fails, a strand runs
its first handler, or a worker thread executes a write job. Steps of different clients interleave in
any order. A handler that throws, or that reads outside a vector, has no next state. A handler is one
step, so `ChoosePiece` asks for a piece and marks it at once; where it matters that the handlers of two
clients meet at the master peer, `Interleaving` takes them apart.

A client starts in the state that `access` leaves it in. A read is completed by a whole message; the
bytes of a message are read in `Wire.ReadLoop`, and what a `request` or a `cancel` does to the
uploads is in `Upload.Model`. -/

namespace CppTorrent.Swarm.Model

open CppTorrent.Files.Blocks CppTorrent.Files.Storage

/-- `bittorrent_constants::REQUEST_MAX_QUEUE_SIZE`. -/
def requestMaxQueueSize : ℕ := 150

/-- `bittorrent_constants::END_GAME_STARTED_FROM`. -/
def endGameStartedFrom : ℕ := 92

/-- A message as `handle_response` takes it apart: `invalid` has a size that its type does not allow,
`other` is a `port` message or one of an unknown type. -/
inductive Message where
  | keepAlive
  | choke
  | unchoke
  | interested
  | notInterested
  | have_ (i : ℕ)
  | bitfield (payload : List UInt8)
  | request (index begin_ length : ℕ)
  | piece (index begin_ : ℕ) (data : List UInt8)
  | cancel (index begin_ length : ℕ)
  | invalid
  | other
  deriving DecidableEq

/-- What can be queued on a strand. -/
inductive Handler where
  /-- the `Post` of `Read`: the read begins -/
  | read
  /-- the callback of a read: `handle_response`, then `do_read_header` -/
  | message (msg : Message)
  /-- posted by `OnChoked` -/
  | onChoked
  /-- posted by `OnPieceBlock` -/
  | block (index begin_ : ℕ) (data : List UInt8)
  /-- posted by `ClearAndTryRequest` -/
  | clearAndTry
  /-- the callback of `piece_wait_timeout_` -/
  | timeoutFired
  /-- posted by the callback of `piece_wait_timeout_` -/
  | pieceTimeout
  /-- posted by `cancel_piece` -/
  | cancelPiece (id : ℕ)
  /-- posted by `MasterPeer::TryToRequestAgain` -/
  | tryToRequest
  /-- posted by `MasterPeer::CancelPiece` -/
  | cancelIfActive (id : ℕ)
  /-- the callback of `keep_alive_timeout_` -/
  | keepAlive
  /-- an error callback or the deadline of the connection -/
  | disconnect
  /-- posted by `Cancel` -/
  | cancelOperation
  deriving DecidableEq

/-- `network::PeerClient`. -/
structure Client where
  isDisconnected : Bool
  amChoking : Bool
  amInterested : Bool
  peerChoking : Bool
  peerInterested : Bool
  /-- the bitfield of the remote peer -/
  pieces : Finset ℕ
  activePiece : Option (Piece × ℕ)
  /-- whether `piece_wait_timeout_` is armed -/
  waiting : Bool
  /-- whether a read is in progress -/
  reading : Bool
  strand : List Handler
  /-- the messages given to the socket -/
  sent : List Message

/-- `bittorrent::WriteRequest`; its `remote_peer` only leads to the master peer. -/
structure WriteRequest where
  pieceIndex : ℕ
  piece : Piece
  deriving DecidableEq

/-- `bittorrent::MasterPeer`, with the counter of the torrent, the flag of `OptimalStrategy` and the
write jobs queued in the file manager. -/
structure Master where
  bitfield : Finset ℕ
  requestedPieces : Finset ℕ
  readyPiecesNum : ℕ
  endGame : Bool
  jobs : List WriteRequest

/-- The whole system, with `n` peers. -/
structure State (n : ℕ) where
  clients : Fin n → Client
  master : Master
  disk : Disk

/-- What does not change: the layout of the files, the hashes of the pieces, the hash function and
whether the strategy is `OptimalStrategy`. -/
structure Config where
  manager : Manager
  pieces : List UInt8
  sha1 : List UInt8 → List UInt8
  optimal : Bool

/-- `Torrent::GetPieceCount`. -/
def Config.total (cfg : Config) : ℕ := cfg.pieces.length / 20

/-- The size of a piece as `TryToRequestPiece` and `cancel_piece` take it. -/
def Config.sizeOf (cfg : Config) (i : ℕ) : ℕ :=
  if i + 1 = cfg.total then cfg.manager.lastPieceSize else cfg.manager.pieceSize

/-- Whether `OptimalStrategy` plays its end game. -/
def Config.inEndGame (cfg : Config) (m : Master) : Bool := cfg.optimal && m.endGame

/-! ### Sending and posting -/

/-- `PeerClient::send_msg`. -/
def Client.send (msg : Message) (c : Client) : Client :=
  if c.isDisconnected then c else { c with sent := c.sent ++ [msg] }

/-- `Post`. -/
def Client.post (h : Handler) (c : Client) : Client := { c with strand := c.strand ++ [h] }

/-- Queues a handler on the strand of a client if it is subscribed. -/
def Client.postIfSubscribed (h : Handler) (c : Client) : Client :=
  if c.isDisconnected then c else c.post h

/-- `PeerClient::send_choke`. -/
def sendChoke (c : Client) : Client := Client.send .choke { c with amChoking := true }

/-- `PeerClient::send_unchoke`. -/
def sendUnchoke (c : Client) : Client := Client.send .unchoke { c with amChoking := false }

/-- `PeerClient::send_interested`. -/
def sendInterested (c : Client) : Client := Client.send .interested { c with amInterested := true }

/-- `PeerClient::send_not_interested`. -/
def sendNotInterested (c : Client) : Client :=
  Client.send .notInterested { c with amInterested := false }

/-- `PeerClient::send_have`. -/
def sendHave (i : ℕ) (c : Client) : Client := c.send (.have_ (i % 2 ^ 32))

/-- `PeerClient::send_request`: the arguments are 32-bit numbers. -/
def sendRequest (index begin_ length : ℕ) (c : Client) : Client :=
  c.send (.request (index % 2 ^ 32) (begin_ % 2 ^ 32) (length % 2 ^ 32))

/-- `PeerClient::send_cancel`. The piece it counts the block off is reset right after. -/
def sendCancel (index begin_ length : ℕ) (c : Client) : Client :=
  c.send (.cancel (index % 2 ^ 32) (begin_ % 2 ^ 32) (length % 2 ^ 32))

/-- `PeerClient::Disconnect`. -/
def disconnect (c : Client) : Client :=
  if c.isDisconnected then c
  else { c.post .cancelOperation with isDisconnected := true, waiting := false }

/-- `MasterPeer::MarkRequestedPiece`. -/
def Master.mark (i : ℕ) (m : Master) : Master :=
  { m with requestedPieces := insert i m.requestedPieces }

/-- `MasterPeer::UnmarkRequestedPiece`. -/
def Master.unmark (i : ℕ) (m : Master) : Master :=
  { m with requestedPieces := m.requestedPieces.erase i }

/-! ### Choosing and requesting a piece -/

/-- The pieces that the remote peer has, that are not done and, unless the end game is played, not
requested. -/
def available (cfg : Config) (m : Master) (c : Client) : List ℕ :=
  (List.range cfg.total).filter fun i =>
    i ∉ m.bitfield ∧ i ∈ c.pieces ∧ (cfg.inEndGame m ∨ i ∉ m.requestedPieces)

/-- The vector `pieces_ids` that `ChoosePiece` chooses from: its elements are 32-bit numbers. -/
def piecesIds (cfg : Config) (m : Master) (c : Client) : List ℕ :=
  (available cfg m c).map (· % 2 ^ 32)

/-- `ChoosePiece` of both strategies, with the random number drawn. -/
def choosePiece (cfg : Config) (r : ℕ) (m : Master) (c : Client) : Option ℕ × Master :=
  let ids := piecesIds cfg m c
  match ids[r % ids.length]? with
  | none => (none, m)
  | some i => (some i, if cfg.inEndGame m then m else m.mark i)

/-- The loop of `TryToRequestPiece` over `req_count`: the client, the rest of the piece, the offset,
and whether `req_count` is still positive. -/
def requestLoop (index : ℕ) : ℕ → ℕ → ℕ → Client → Client × ℕ × ℕ × Bool
  | 0, pieceSize, begin_, c => (c, pieceSize, begin_, false)
  | reqCount + 1, pieceSize, begin_, c =>
    if mostRequestSize < pieceSize then
      requestLoop index reqCount (pieceSize - mostRequestSize) (begin_ + mostRequestSize)
        (sendRequest index begin_ mostRequestSize c)
    else (c, pieceSize, begin_, true)

/-- The end of `TryToRequestPiece`: requests blocks of the active piece and waits for them. -/
def requestBlocks (pieceSize : ℕ) (piece : Piece) (begin_ : ℕ) (c : Client) : Client :=
  let (c, rest, begin_, more) := requestLoop piece.index requestMaxQueueSize pieceSize begin_ c
  if more then
    { sendRequest piece.index begin_ rest c with
      activePiece := some (piece, begin_ + rest), waiting := true }
  else { c with activePiece := some (piece, begin_), waiting := true }

/-- The number of blocks of a piece of that size. -/
def blockCountOf (pieceSize : ℕ) : ℕ := (pieceSize + mostRequestSize - 1) / mostRequestSize

/-- `PeerClient::TryToRequestPiece`. -/
def tryToRequestPiece (cfg : Config) (r : ℕ) (m : Master) (c : Client) : Master × Client :=
  match c.activePiece with
  | none =>
    if m.bitfield.card = cfg.total then (m, sendNotInterested c)
    else if c.peerChoking then (m, c)
    else
      let c := if c.amInterested then c else sendInterested c
      match choosePiece cfg r m c with
      | (none, m) => (m, c)
      | (some i, m) =>
        let pieceSize := cfg.sizeOf i
        (m, requestBlocks pieceSize (newPiece i (blockCountOf pieceSize)) 0 c)
  | some (piece, begin_) =>
    let pieceSize := cfg.sizeOf piece.index
    if pieceSize = begin_ then (m, c) else (m, requestBlocks pieceSize piece begin_ c)

/-! ### Messages -/

/-- `OnPieceBlock` of both strategies. -/
def onPieceBlock (cfg : Config) (m : Master) (index begin_ : ℕ) (data : List UInt8) (c : Client) :
    Client :=
  if cfg.total ≤ index then disconnect c
  else if mostRequestSize < data.length then c
  else if ¬cfg.inEndGame m ∧ index ∉ m.requestedPieces then c
  else if index ∈ m.bitfield then c.post (.cancelPiece index)
  else Client.post (.block index begin_ data) { c with waiting := false }

/-- The bits a `bitfield` message sets. -/
def bitsOf (total : ℕ) (payload : List UInt8) : Finset ℕ :=
  (Finset.range total).filter fun i => (payload.getD (i / 8) 0).toNat.testBit (7 - i % 8)

/-- `Bitfield::GetCast`: the bytes of a bit set, the first position in the highest bit. -/
def getCast (total : ℕ) (bits : Finset ℕ) : List UInt8 :=
  (List.range ((total + 7) / 8)).map fun k =>
    UInt8.ofNat (((List.range 8).map fun x => if 8 * k + x ∈ bits then 2 ^ (7 - x) else 0).sum)

/-- `PeerClient::handle_response`, with what the strategy does on each message. -/
def handleResponse (cfg : Config) (r : ℕ) (m : Master) (c : Client) : Message → Master × Client
  | .keepAlive | .other => (m, c)
  | .choke => (m, Client.post .onChoked { c with peerChoking := true })
  | .unchoke => tryToRequestPiece cfg r m { c with peerChoking := false }
  | .interested =>
    let c := { c with peerInterested := true }
    let c := if c.amChoking ∧ ¬c.isDisconnected then sendUnchoke c else c
    if c.peerChoking then (m, c) else tryToRequestPiece cfg r m c
  | .notInterested =>
    let c := { c with peerInterested := false }
    (m, if ¬c.amChoking ∧ c.peerChoking then sendChoke c else c)
  | .have_ i =>
    if cfg.total ≤ i then (m, c)
    else
      let c := { c with pieces := insert i c.pieces }
      if i ∈ m.bitfield then (m, c) else tryToRequestPiece cfg r m c
  | .bitfield payload =>
    if (cfg.total + 7) / 8 < payload.length then (m, disconnect c)
    else
      let c := { c with pieces := c.pieces ∪ bitsOf cfg.total payload }
      let c := if (c.pieces \ m.bitfield).Nonempty then sendInterested c else c
      tryToRequestPiece cfg r m c
  | .request index _ _ =>
    (m, if ¬c.peerInterested ∨ c.amChoking ∨ cfg.total ≤ index then disconnect c else c)
  | .piece index begin_ data => (m, onPieceBlock cfg m index begin_ data c)
  | .cancel index _ _ => (m, if cfg.total ≤ index then disconnect c else c)
  | .invalid => (m, disconnect c)

/-- `PeerClient::do_read_header`. -/
def doReadHeader (c : Client) : Client := if c.isDisconnected then c else c.post .read

/-- The callbacks of `do_read_header` and `do_read_body`: a keep-alive has no body to handle. -/
def onMessage (cfg : Config) (r : ℕ) (m : Master) (c : Client) : Message → Master × Client
  | .keepAlive => (m, c)
  | msg =>
    let (m, c) := handleResponse cfg r m c msg
    (m, doReadHeader c)

/-! ### Handlers -/

/-- A block is put into its slot and counted. -/
def stored (piece : Piece) (begin_ : ℕ) (data : List UInt8) : Piece :=
  { piece with
    blocks := piece.blocks.set (begin_ / mostRequestSize) ⟨data, begin_⟩
    currentBlocksNum := piece.currentBlocksNum + 1 }

/-- What `std::move` leaves of a piece. -/
def movedFrom (piece : Piece) : Piece := { piece with blocks := [] }

/-- The handler posted by `OnPieceBlock`: no next state if there is no active piece or no such
block. A piece that is complete is moved into a write job. -/
def storeBlock (cfg : Config) (r : ℕ) (m : Master) (c : Client) (index begin_ : ℕ)
    (data : List UInt8) : Option (Master × Client) :=
  match c.activePiece with
  | none => none
  | some (piece, offset) =>
    if begin_ / mostRequestSize < piece.blocks.length then
      let piece := stored piece begin_ data
      if piece.currentBlocksNum = piece.blockCount then
        some ({ m with jobs := m.jobs ++ [⟨index, piece⟩] },
          Client.post .clearAndTry { c with activePiece := some (movedFrom piece, offset) })
      else
        let c := { c with activePiece := some (piece, offset) }
        if piece.currentBlocksNum % requestMaxQueueSize = 0 then
          some (tryToRequestPiece cfg r m c)
        else some (m, c)
    else none

/-- The loop of `cancel_piece`; the fuel bounds its rounds. -/
def cancelLoop (id : ℕ) : ℕ → ℕ → ℕ → Client → Client
  | 0, length, begin_, c => sendCancel id begin_ length c
  | fuel + 1, length, begin_, c =>
    if mostRequestSize < length then
      cancelLoop id fuel (length - mostRequestSize) (begin_ + mostRequestSize)
        (sendCancel id begin_ mostRequestSize c)
    else sendCancel id begin_ length c

/-- Whether a piece of that index is active. -/
def Client.isActive (id : ℕ) (c : Client) : Bool :=
  match c.activePiece with
  | none => false
  | some (piece, _) => piece.index = id

/-- Whether a handler calls `MasterPeer::TryToRequestAgain`. -/
def callsTryToRequestAgain (c : Client) (h : Handler) : Bool :=
  h = .pieceTimeout && c.activePiece.isSome

/-- What a handler does to its client and to the master peer. Where it calls `TryToRequestAgain`, the
client is one of those that are told. -/
def execute (cfg : Config) (r : ℕ) (m : Master) (c : Client) : Handler → Option (Master × Client)
  | .read => some (m, { c with reading := true })
  | .message msg => some (onMessage cfg r m c msg)
  | .onChoked =>
    match c.activePiece with
    | none => some (m, c)
    | some (piece, _) => some (m.unmark piece.index, { c with activePiece := none })
  | .block index begin_ data => storeBlock cfg r m c index begin_ data
  | .clearAndTry => some (tryToRequestPiece cfg r m { c with activePiece := none })
  | .timeoutFired => some (m, c.post .pieceTimeout)
  | .pieceTimeout =>
    match c.activePiece with
    | none => some (m, c)
    | some (piece, _) =>
      let c := c.postIfSubscribed .tryToRequest
      some (m.unmark piece.index, if c.peerChoking then c else c.post (.cancelPiece piece.index))
  | .cancelPiece id =>
    if c.isActive id then
      let c := cancelLoop id (cfg.sizeOf id) (cfg.sizeOf id) 0 c
      some (m, { c with activePiece := none })
    else some (m, c)
  | .tryToRequest => some (tryToRequestPiece cfg r m c)
  | .cancelIfActive id =>
    if c.isActive id then some (tryToRequestPiece cfg r m (c.post (.cancelPiece id)))
    else some (m, c)
  | .keepAlive =>
    if c.amInterested ∨ ¬c.peerChoking then
      let c := c.send .keepAlive
      if c.amInterested then some (tryToRequestPiece cfg r m c) else some (m, c)
    else some (m, c)
  | .disconnect => some (m, disconnect c)
  | .cancelOperation => some (m, { c with reading := false })

/-! ### The system -/

variable {n : ℕ}

/-- Changes one client. -/
def State.set (p : Fin n) (c : Client) (s : State n) : State n :=
  { s with clients := Function.update s.clients p c }

/-- `MasterPeer::TryToRequestAgain`, for the clients other than the one that calls it. -/
def tryToRequestAgain (p : Fin n) (s : State n) : State n :=
  { s with clients := fun q =>
      if q = p then s.clients q else (s.clients q).postIfSubscribed .tryToRequest }

/-- `MasterPeer::CancelPiece`. -/
def cancelPiece (i : ℕ) (s : State n) : State n :=
  { s with clients := fun q => (s.clients q).postIfSubscribed (.cancelIfActive i) }

/-- `MasterPeer::SendHaveToAll`. -/
def sendHaveToAll (i : ℕ) (s : State n) : State n :=
  { s with clients := fun q =>
      let c := s.clients q
      if ¬c.isDisconnected ∧ c.peerInterested then sendHave i c else c }

/-- `OnPieceDownloaded` of the torrent and of both strategies. -/
def onPieceDownloaded (cfg : Config) (i : ℕ) (s : State n) : State n :=
  let ready := s.master.readyPiecesNum + 1
  let s := { s with master := { s.master with readyPiecesNum := ready } }
  if ¬cfg.optimal then s
  else if s.master.endGame then cancelPiece i s
  else if endGameStartedFrom * cfg.total ≤ 100 * ready then
    { s with master := { s.master with endGame := true } }
  else s

/-- `TorrentFilesManager::SetPiece` with `Torrent::Have`. -/
def setPiece (cfg : Config) (i : ℕ) (s : State n) : State n :=
  onPieceDownloaded cfg i (sendHaveToAll i
    { s with master := { s.master with bitfield := insert i s.master.bitfield } })

/-- `TorrentFilesManager::ArePieceValid`: `GetSHA1FromPiece` hashes the blocks one after the other. -/
def arePieceValid (cfg : Config) (pieceIndex : ℕ) (blocks : List Block) : Bool :=
  cfg.sha1 (contents blocks) = (cfg.pieces.drop (pieceIndex * 20)).take 20

/-- Whether `std::sort` can leave the blocks in that order. -/
def sorts (blocks sorted : List Block) : Bool :=
  decide (sorted.Perm blocks) && decide (sorted.Pairwise fun a b => a.begin_ ≤ b.begin_)

/-- The job queued by `TorrentFilesManager::DownloadPiece`. -/
def downloadPiece (cfg : Config) (req : WriteRequest) (sorted : List Block) (s : State n) :
    Option (State n) :=
  let unbind (s : State n) : State n := { s with master := s.master.unmark req.pieceIndex }
  if arePieceValid cfg req.pieceIndex sorted then
    match writePieceToFile cfg.manager s.disk { req.piece with blocks := sorted } with
    | .error _ => none
    | .ok disk => some (unbind (setPiece cfg req.pieceIndex { s with disk := disk }))
  else some (unbind s)

/-- What can happen next. -/
inductive Event (n : ℕ) where
  /-- the read in progress is completed by a message -/
  | arrive (p : Fin n) (msg : Message)
  /-- the timer of the active piece expires -/
  | expire (p : Fin n)
  /-- the keep-alive timer expires -/
  | keepAlive (p : Fin n)
  /-- an operation of the socket fails, or the deadline of the connection passes -/
  | fail (p : Fin n)
  /-- the strand of a client runs its first handler, with a random number -/
  | run (p : Fin n) (r : ℕ)
  /-- a worker thread executes a write job, with the order its sort leaves the blocks in -/
  | work (k : ℕ) (sorted : List Block)

/-- The first handler of a strand runs. -/
def runFirst (cfg : Config) (p : Fin n) (r : ℕ) (s : State n) : Option (State n) :=
  match (s.clients p).strand with
  | [] => none
  | h :: rest =>
    let c := { s.clients p with strand := rest }
    (execute cfg r s.master c h).map fun (m, c') =>
      let s := { s.set p c' with master := m }
      if callsTryToRequestAgain c h then tryToRequestAgain p s else s

/-- One step of the system. -/
def step (cfg : Config) (s : State n) : Event n → Option (State n)
  | .arrive p msg =>
    let c := s.clients p
    if c.reading then some (s.set p (Client.post (.message msg) { c with reading := false }))
    else none
  | .expire p =>
    let c := s.clients p
    if c.waiting then some (s.set p (Client.post .timeoutFired { c with waiting := false }))
    else none
  | .keepAlive p => some (s.set p ((s.clients p).post .keepAlive))
  | .fail p => some (s.set p ((s.clients p).post .disconnect))
  | .run p r => runFirst cfg p r s
  | .work k sorted =>
    match s.master.jobs[k]? with
    | none => none
    | some req =>
      if sorts req.piece.blocks sorted then
        downloadPiece cfg req sorted
          { s with master := { s.master with jobs := s.master.jobs.eraseIdx k } }
      else none

/-- A client after `access`: it has sent the bitfield, in which no bit is set, and reads. -/
def access (cfg : Config) : Client :=
  ⟨false, true, false, true, false, ∅, none, false, false, [.read],
    [.bitfield (List.replicate ((cfg.total + 7) / 8) 0)]⟩

/-- Nothing is downloaded yet. -/
def init (n : ℕ) (cfg : Config) (disk : Disk) : State n :=
  ⟨fun _ => access cfg, ⟨∅, ∅, 0, false, []⟩, disk⟩

/-! ### An example torrent -/

/-- The hashes of three byte strings. -/
def sha1Table (bytes : List UInt8) : List UInt8 :=
  if bytes = [1, 2] then
    [12, 166, 35, 226, 133, 95, 44, 117, 200, 66, 173, 48, 47, 232, 32, 228, 27, 77, 25, 125]
  else if bytes = [3] then
    [152, 66, 146, 106, 247, 202, 10, 140, 202, 18, 96, 79, 148, 84, 20, 240, 123, 1, 225, 61]
  else if bytes = [0] then
    [91, 169, 60, 157, 176, 207, 249, 63, 82, 181, 33, 215, 66, 14, 67, 246, 237, 162, 120, 79]
  else []

/-- The file of the bytes 1, 2 and 3, in pieces of two bytes. -/
def threeBytes : Config where
  manager := ⟨2, 1, [⟨0, 0, 0, 0, 2⟩, ⟨0, 1, 0, 2, 2⟩, ⟨0, 2, 0, 4, 1⟩]⟩
  pieces := sha1Table [1, 2] ++ sha1Table [3]
  sha1 := sha1Table
  optimal := false

/-- Its file as `fill_files` creates it. -/
def threeBytesDisk : Disk := fun path => if path = 0 then some [0, 0, 0] else none

/-- A torrent whose first piece has two blocks, of which the second has one byte. -/
def twoBlocks : Config := { threeBytes with manager := { threeBytes.manager with pieceSize := 16385 } }

/-- The events in which a peer that has both pieces unchokes the client, which chooses a piece. -/
def offers (p : Fin n) : List (Event n) :=
  [.run p 0, .arrive p (.bitfield [192]), .run p 0, .run p 0, .arrive p .unchoke, .run p 0]

/-- The events in which a message of one block arrives and is stored, and its job is executed. -/
def answers (p : Fin n) (index : ℕ) (data : List UInt8) : List (Event n) :=
  [.run p 0, .arrive p (.piece index 0 data), .run p 0, .run p 0, .work 0 [⟨data, 0⟩]]

end CppTorrent.Swarm.Model
