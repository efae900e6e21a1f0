import CppTorrent.Lib.Runs

/-! # Serving block requests

A block request of a remote peer goes through `OnRequest`, `UploadBlock` and a job of the
`AsyncWorker`; a cancel goes through `OnCancel` and `CancelBlock`. The request is tracked in three
places: the queue of the worker, the map `active_requests_` and the set `uploaded_pieces_`.

The steps are the critical sections of the code: `UploadBlock` and `CancelBlock` run under
`manager_mut_`, the accesses to `uploaded_pieces_` under the mutex of the master peer, and a job that
a worker thread has taken from the queue goes through its guard, its `send_block` and its
`UnbindUpload` in steps of its own. Steps of different peers and threads interleave in any order.

`UploadBlock` builds the key of the map from an argument that has been moved into the closure, so the
peer of the key is null (`ReadRequest.movedFrom`).

The fields `issued`, `inTime` and `cancelled` only record what has happened: a request that was
accepted has the ticket given by its position in `issued`. -/

namespace CppTorrent.Upload.Model

/-- `bittorrent::ReadRequest`; the peer is a shared pointer. -/
structure ReadRequest where
  remotePeer : Option ℕ
  pieceIndex : ℕ
  offset : ℕ
  length : ℕ
  deriving DecidableEq

/-- What `std::move` leaves of a request. -/
def ReadRequest.movedFrom (req : ReadRequest) : ReadRequest := { req with remotePeer := none }

/-- A queued upload: its id in the worker, its ticket and the request in its closure. -/
structure Job where
  id : ℕ
  ticket : ℕ
  req : ReadRequest

/-- How far a worker thread has come with a job. -/
inductive Phase where
  | dequeued
  | checked
  | finished
  deriving DecidableEq

/-- The state shared by the peers and the worker threads. -/
structure State where
  /-- the pieces done -/
  bitfield : List ℕ
  /-- `AsyncWorker::queue_`; `executing_callbacks_` has the ids in it -/
  queue : List Job
  /-- the jobs that threads are executing -/
  running : List (Job × Phase)
  activeRequests : ReadRequest → Option ℕ
  uploadedPieces : List ℕ
  /-- the ids of `BindUpload` calls still to be made -/
  binding : List ℕ
  /-- the `CancelBlock` calls still to be made -/
  cancelling : List ReadRequest
  /-- the tickets of the `send_block` calls made -/
  sent : List ℕ
  /-- the requests accepted so far -/
  issued : List ReadRequest
  /-- the tickets whose job was queued when a cancel was handled -/
  inTime : List ℕ
  /-- the tickets for which a cancel has been handled -/
  cancelled : List ℕ

/-- `AsyncWorker::Enqueue` with the id drawn: an id in use is drawn again. -/
def enqueue (id : ℕ) (ticket : ℕ) (req : ReadRequest) (queue : List Job) : Option (List Job) :=
  if id ∈ queue.map Job.id then none else some (queue ++ [⟨id, ticket, req⟩])

/-- `AsyncWorker::Erase`. -/
def erase (id : ℕ) (queue : List Job) : List Job := queue.eraseP fun j => j.id = id

/-- `std::map::emplace`, with the id the map holds afterwards. -/
def emplace (req : ReadRequest) (id : ℕ) (m : ReadRequest → Option ℕ) :
    ℕ × (ReadRequest → Option ℕ) :=
  match m req with
  | some old => (old, m)
  | none => (id, Function.update m req (some id))

/-- `TorrentFilesManager::UploadBlock`: the id returned, and the state after. -/
def uploadBlock (req : ReadRequest) (id : ℕ) (s : State) : Option (ℕ × State) :=
  (enqueue id s.issued.length req s.queue).map fun queue =>
    let (ret, m) := emplace req.movedFrom id s.activeRequests
    (ret, { s with queue := queue, activeRequests := m, issued := s.issued ++ [req] })

/-- `TorrentFilesManager::CancelBlock`. -/
def cancelBlock (req : ReadRequest) (s : State) : State :=
  match s.activeRequests req with
  | none => s
  | some id =>
    { s with
      queue := erase id s.queue
      activeRequests := Function.update s.activeRequests req none
      uploadedPieces := s.uploadedPieces.filter (· ≠ req.pieceIndex) }

/-- The positions at which a request was issued. -/
def ticketsOf (req : ReadRequest) (issued : List ReadRequest) : List ℕ :=
  (List.range issued.length).filter fun t => issued[t]? = some req

/-- Records that a cancel has been handled. -/
def recordCancel (req : ReadRequest) (s : State) : State :=
  { s with
    inTime := s.inTime ++ (s.queue.filter fun j => j.req = req).map Job.ticket
    cancelled := s.cancelled ++ ticketsOf req s.issued }

/-- What can happen next. -/
inductive Event where
  /-- a piece is done -/
  | have_ (i : ℕ)
  /-- `OnRequest` up to the return of `UploadBlock`, with the id drawn by `Enqueue` -/
  | onRequest (peer index offset length id : ℕ)
  /-- the `BindUpload` of an `OnRequest` -/
  | bindUpload (k : ℕ)
  /-- `OnCancel` up to its test of `PieceUploaded` -/
  | onCancel (peer index offset length : ℕ)
  /-- the `CancelBlock` of an `OnCancel` -/
  | cancelBlock (k : ℕ)
  /-- a worker thread takes the first job of the queue -/
  | dequeue
  /-- the guard at the beginning of a job -/
  | guard (k : ℕ)
  /-- the job reads its block and calls `OnBlockReadyToSend` -/
  | send (k : ℕ)
  /-- the `UnbindUpload` at the end of a job -/
  | unbind (k : ℕ)

/-- A thread moves on with the job at position `k`. -/
def advance (k : ℕ) (j : Job) (phase : Phase) (s : State) : State :=
  { s with running := (j, phase) :: s.running.eraseIdx k }

/-- One step, for a torrent of `total` pieces. -/
def step (total : ℕ) (s : State) : Event → Option State
  | .have_ i => some { s with bitfield := i :: s.bitfield }
  | .onRequest peer index offset length id =>
    if total ≤ index then some s
    else if index ∈ s.bitfield then
      (uploadBlock ⟨some peer, index, offset, length⟩ id s).map fun (ret, s) =>
        { s with binding := s.binding ++ [ret] }
    else some s
  | .bindUpload k => s.binding[k]?.map fun id =>
    { s with binding := s.binding.eraseIdx k, uploadedPieces := id :: s.uploadedPieces }
  | .onCancel peer index offset length =>
    if total ≤ index then some s
    else
      let req : ReadRequest := ⟨some peer, index, offset, length⟩
      if index ∈ s.uploadedPieces then some { s with cancelling := s.cancelling ++ [req] }
      else some (recordCancel req s)
  | .cancelBlock k => s.cancelling[k]?.map fun req =>
    cancelBlock req (recordCancel req { s with cancelling := s.cancelling.eraseIdx k })
  | .dequeue =>
    match s.queue with
    | [] => none
    | j :: queue => some { s with queue := queue, running := (j, .dequeued) :: s.running }
  | .guard k =>
    match s.running[k]? with
    | some (j, .dequeued) =>
      if (s.activeRequests j.req).isSome then some { s with running := s.running.eraseIdx k }
      else some { advance k j .checked s with
        activeRequests := Function.update s.activeRequests j.req none }
    | _ => none
  | .send k =>
    match s.running[k]? with
    | some (j, .checked) =>
      if total ≤ j.req.pieceIndex then some (advance k j .finished s)
      else some { advance k j .finished s with sent := s.sent ++ [j.ticket] }
    | _ => none
  | .unbind k =>
    match s.running[k]? with
    | some (j, .finished) => some { s with
        running := s.running.eraseIdx k
        uploadedPieces := s.uploadedPieces.filter (· ≠ j.req.pieceIndex) }
    | _ => none

/-- Nothing has been requested. -/
def init : State := ⟨[], [], [], fun _ => none, [], [], [], [], [], [], []⟩

end CppTorrent.Upload.Model
