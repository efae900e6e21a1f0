import CppTorrent.Files.SingleStore
import CppTorrent.Upload.Cancel
import CppTorrent.Wire.Delivery

/-! # What a request is answered with

A `request` message goes from `handle_response` to `OnRequest`, from there as a job to the worker, and
the job reads the block and hands it to `OnBlockReadyToSend`, which sends it. On the way only the index
is tested. `begin` and `length` reach `ReadPieceBlockFromFile` as they are.

In a single-file torrent the entry of a piece is as long as the piece length and the file goes on
behind it. A request that leaves its piece is answered with the bytes that follow in the file, or with
zeros behind its end, and an empty request with an empty block. `onlyRequested_iff` says that this is
all: a request is served as it should be exactly if its piece is not done, and then it is not served at
all, or if it lies inside its piece. -/

namespace CppTorrent.Upload.Serving

open CppTorrent.Lib.Runs CppTorrent.Lib.Endian CppTorrent.Lib.ByteFile
open CppTorrent.Files.Blocks CppTorrent.Files.Storage CppTorrent.Files.Layout
open CppTorrent.Files.SingleFile CppTorrent.Files.MultiFile CppTorrent.Files.SingleStore
open CppTorrent.Wire.Message CppTorrent.Wire.HandleResponse CppTorrent.Wire.Delivery
open CppTorrent.Upload.Model CppTorrent.Upload.Cancel

/-- What the handlers use: the torrent and the files on disk. -/
structure Torrent where
  total : ℕ
  /-- the pieces done -/
  bitfield : List ℕ
  manager : Manager
  disk : Disk

variable (host : Host) (t : Torrent) (peer : ℕ)

/-- A client with the jobs its requests have added to the queue of the worker. -/
abbrev Server : Type := Client (List ReadRequest)

/-- `BittorrentStrategy::OnRequest`, up to the job of `UploadBlock`. -/
def onRequest (index begin_ length : ℕ) (c : Server) : Server :=
  if t.total ≤ index then { c with isDisconnected := true }
  else if index ∈ t.bitfield then { c with rest := c.rest ++ [⟨some peer, index, begin_, length⟩] }
  else c

/-- The handlers of the strategy, as far as requests are concerned. -/
def handlers : Surroundings (List ReadRequest) where
  disconnect := id
  on msg c :=
    match msg with
    | .request index begin_ length => onRequest t peer index.toNat begin_.toNat length.toNat c
    | _ => c
  pieces_on msg c := by
    cases msg <;> try rfl
    unfold onRequest
    dsimp only
    split_ifs <;> rfl

/-- `BittorrentStrategy::OnBlockReadyToSend`: the bytes given to the socket. -/
def onBlockReadyToSend (pieceIdx offset : ℕ) (block : Block) : Option (List UInt8) :=
  if t.total ≤ pieceIdx then none
  else some (sendBlock host (UInt32.ofNat pieceIdx) (UInt32.ofNat offset) block.data)

/-- The job of `UploadBlock`, for the requests in `active_requests_` when it is executed. -/
def uploadJob (activeRequests : ReadRequest → Option ℕ) (req : ReadRequest) :
    Except Fault (Option (List UInt8)) :=
  if (activeRequests req).isSome then .ok none
  else do
    let block ← readPieceBlockFromFile t.manager t.disk req.pieceIndex req.offset req.length
    return onBlockReadyToSend host t req.pieceIndex req.offset block

/-- The positions of their files at which the loop of `ReadPieceBlockFromFile` reads. -/
def partsRead : List FileInfo → ℕ → ℕ → List (ℕ × Window)
  | [], _, _ => []
  | file :: files, blockBeg, length =>
    if length = 0 then []
    else
      let rest := min (toSize (file.size - file.fileBegin - blockBeg)) length
      let size := if rest = 0 then length else rest
      (file.path, ⟨toSize (file.fileBegin + blockBeg), size⟩) :: partsRead files 0 (length - size)

/-- The positions at which a job reads. -/
def jobReads (activeRequests : ReadRequest → Option ℕ) (req : ReadRequest) : List (ℕ × Window) :=
  let files := entriesOf req.pieceIndex t.manager.piecesByFiles
  if (activeRequests req).isSome then []
  else match files.drop (upperBound files req.offset - 1) with
    | [] => []
    | file :: rest =>
      partsRead (file :: rest) (toSize (req.offset - file.pieceBegin)) req.length

/-- The jobs that a message adds. -/
def jobs (c : Server) (message : List UInt8) : List ReadRequest :=
  match handleResponse host t.total (handlers t peer) (received message) c with
  | some (_, c') => c'.rest.drop c.rest.length
  | none => []

/-- The bytes sent in answer to a message. -/
def answers (activeRequests : ReadRequest → Option ℕ) (c : Server) (message : List UInt8) :
    List (List UInt8) :=
  (jobs host t peer c message).filterMap fun req =>
    match uploadJob host t activeRequests req with
    | .ok frame => frame
    | .error _ => none

/-- The positions read in answer to a message. -/
def reads (activeRequests : ReadRequest → Option ℕ) (c : Server) (message : List UInt8) :
    List (ℕ × Window) :=
  (jobs host t peer c message).flatMap (jobReads t activeRequests)

/-! ### One entry -/

/-- **A job reads the bytes at these positions**, if the files are there. -/
theorem readParts_eq (disk : Disk) (file : ℕ → List UInt8) : ∀ (parts : List FileInfo)
    (blockBeg length : ℕ), (∀ e ∈ parts, disk e.path = some (file e.path)) →
    readParts disk parts blockBeg length =
      .ok ((partsRead parts blockBeg length).flatMap fun r => readAt r.2.start r.2.size (file r.1))
  | [], _, _, _ => rfl
  | e :: parts, blockBeg, length, h => by
    have he := h e List.mem_cons_self
    unfold readParts partsRead
    split
    · rfl
    · rw [he]
      dsimp only
      rw [readParts_eq disk file parts 0 _ fun e' he' => h e' (List.mem_cons_of_mem e he'),
        List.flatMap_cons]
      rfl

/-- The entry of a piece of a single-file torrent. -/
def entryOf (pl p : ℕ) : FileInfo := ⟨0, p, 0, ((p * pl : ℕ) : ℤ), pl⟩

theorem upperBound_entryOf (pl p begin_ : ℕ) : upperBound [entryOf pl p] begin_ = 1 := by
  have hbegin : ¬ begin_ < toSize (entryOf pl p).pieceBegin := by
    show ¬ begin_ < 0
    omega
  unfold upperBound
  rw [List.takeWhile_cons_of_pos (by simpa using hbegin)]
  rfl

variable {t : Torrent} {pl p : ℕ} {content : List UInt8}

/-- A read of a piece with one entry succeeds, whatever is asked for. -/
theorem readPieceBlockFromFile_isOk (hentry : entriesOf p t.manager.piecesByFiles = [entryOf pl p])
    (hdisk : t.disk 0 = some content) (begin_ length : ℕ) :
    ∃ block, readPieceBlockFromFile t.manager t.disk p begin_ length = .ok block := by
  have hparts := readParts_eq t.disk (fun _ => content) [entryOf pl p]
    (toSize (begin_ - (entryOf pl p).pieceBegin)) length fun e he => by
      rw [List.mem_singleton.mp he]
      exact hdisk
  unfold entriesOf at hentry
  unfold readPieceBlockFromFile
  rw [hentry, if_neg (List.cons_ne_nil _ _), upperBound_entryOf]
  simp only [List.drop_zero, hparts]
  exact ⟨_, rfl⟩

/-! ### One request -/

/-- A request lies inside its piece. -/
def Inside (pl total : ℕ) (index begin_ length : UInt32) : Prop :=
  1 ≤ length.toNat ∧ begin_.toNat + length.toNat ≤ pieceLen pl total index.toNat

/-- A block is sent in answer to a request inside its piece only, with the bytes asked for; and for a
request outside its piece nothing is sent and no byte of another piece is read. -/
def OnlyRequested (host : Host) (pl : ℕ) (content : List UInt8) (index begin_ length : UInt32)
    (frames : List (List UInt8)) (reads : List (ℕ × Window)) : Prop :=
  (∀ frame ∈ frames, Inside pl content.length index begin_ length ∧
    frame = sendBlock host index begin_
      (((pieceText pl content index.toNat).drop begin_.toNat).take length.toNat)) ∧
  (¬ Inside pl content.length index begin_ length → frames = [] ∧
    ∀ r ∈ reads, ∀ i < content.length, r.2.Holds i →
      (pieceWindow pl content.length index.toNat).Holds i)

/-- `OnRequest` accepts the requests for the pieces done. -/
def Accepted (t : Torrent) (index : UInt32) : Prop :=
  index.toNat < t.total ∧ index.toNat ∈ t.bitfield

variable {host peer} {c : Server}

/-- An accepted request adds one job, another one none. -/
theorem jobs_request (hopen : c.status.peerInterested = true ∧ c.status.amChoking = false)
    (index begin_ length : UInt32) [Decidable (Accepted t index)] :
    jobs host t peer c (body (.request index begin_ length)) =
      if Accepted t index then
        [⟨some peer, index.toNat, begin_.toNat, length.toNat⟩] else [] := by
  unfold jobs
  rw [handleResponse_request host hopen]
  show (onRequest t peer index.toNat begin_.toNat length.toNat c).rest.drop c.rest.length = _
  unfold onRequest
  rcases Nat.lt_or_ge index.toNat t.total with hlt | hge
  · rw [if_neg (Nat.not_le.mpr hlt)]
    by_cases hdone : index.toNat ∈ t.bitfield
    · rw [if_pos hdone, if_pos ⟨hlt, hdone⟩]
      exact List.drop_left
    · rw [if_neg hdone, if_neg fun h => hdone h.2]
      exact List.drop_length
  · rw [if_pos hge, if_neg fun h => Nat.not_lt.mpr hge h.1]
    exact List.drop_length

variable (host peer) in
/-- The answer to an accepted request is the block read for it. -/
theorem answers_accepted (hopen : c.status.peerInterested = true ∧ c.status.amChoking = false)
    {index begin_ length : UInt32} (haccepted : Accepted t index)
    {activeRequests : ReadRequest → Option ℕ} (hactive : ∀ req, req.remotePeer ≠ none →
      activeRequests req = none) {block : Block}
    (hread : readPieceBlockFromFile t.manager t.disk index.toNat begin_.toNat length.toNat =
      .ok block) :
    answers host t peer activeRequests c (body (.request index begin_ length)) =
      [sendBlock host index begin_ block.data] := by
  classical
  have hguard := hactive ⟨some peer, index.toNat, begin_.toNat, length.toNat⟩ (by simp)
  have hjob : uploadJob host t activeRequests ⟨some peer, index.toNat, begin_.toNat, length.toNat⟩ =
      .ok (some (sendBlock host index begin_ block.data)) := by
    unfold uploadJob
    rw [hguard, Option.isSome_none, if_neg Bool.false_ne_true]
    dsimp only
    rw [hread]
    show Except.ok (onBlockReadyToSend host t index.toNat begin_.toNat block) = _
    unfold onBlockReadyToSend
    rw [if_neg (Nat.not_le.mpr haccepted.1), UInt32.ofNat_toNat, UInt32.ofNat_toNat]
  unfold answers
  rw [jobs_request hopen, if_pos haccepted, List.filterMap_cons, hjob]
  rfl

/-- A single-file torrent whose metainfo is consistent: the pieces are as many as the file needs, and
the file is on disk. -/
structure Stored (pl : ℕ) (content : List UInt8) (t : Torrent) : Prop where
  pl_pos : 0 < pl
  pl_lt : pl < 2 ^ 63
  length_lt : content.length < 2 ^ 63
  filled : ∃ fuel sha1s, sha1s.length = 20 * ((content.length + pl - 1) / pl) ∧
    t.total = (⟨pl, some content.length, [], sha1s⟩ : Info).pieceCount ∧
    fillFiles fuel ⟨pl, some content.length, [], sha1s⟩ = .ok t.manager
  onDisk : t.disk 0 = some content

/-- Every piece of the torrent has its entry. -/
theorem Stored.entriesOf_eq (h : Stored pl content t) (hp : p < t.total) :
    entriesOf p t.manager.piecesByFiles = [entryOf pl p] := by
  obtain ⟨fuel, sha1s, hsha1s, htotal, hm⟩ := h.filled
  obtain ⟨-, -, hentries⟩ := fillFiles_single h.pl_pos h.pl_lt h.length_lt hm
  have hcount : p < sha1s.length / 20 := by
    rw [htotal] at hp
    exact hp
  have hdiv : p < (content.length + pl - 1) / pl := by omega
  rw [Nat.lt_div_iff_mul_lt h.pl_pos] at hdiv
  exact hentries p hcount (by omega)

/-- The bytes of a range of a piece. -/
theorem take_drop_pieceText {begin_ len : ℕ} (h : begin_ + len ≤ pieceLen pl content.length p) :
    ((pieceText pl content p).drop begin_).take len = (content.drop (p * pl + begin_)).take len := by
  have hle : len ≤ pl - begin_ := by
    unfold pieceLen at h
    omega
  unfold pieceText
  rw [List.drop_take, List.take_take, List.drop_drop, min_eq_left hle]

/-- **A request is served as it should be exactly if it is not accepted or lies inside its piece.** -/
theorem onlyRequested_iff (h : Stored pl content t) {es : List Event} {s : State}
    (hs : run (step t.total) init es = some s)
    (hopen : c.status.peerInterested = true ∧ c.status.amChoking = false)
    (index begin_ length : UInt32) :
    OnlyRequested host pl content index begin_ length
        (answers host t peer s.activeRequests c (body (.request index begin_ length)))
        (reads host t peer s.activeRequests c (body (.request index begin_ length))) ↔
      ¬ Accepted t index ∨ Inside pl content.length index begin_ length := by
  classical
  have hactive : ∀ req, req.remotePeer ≠ none → s.activeRequests req = none := fun req hreq =>
    (inv_run hs).absent hreq
  by_cases haccepted : Accepted t index
  · have hentry := h.entriesOf_eq haccepted.1
    obtain ⟨block, hread⟩ := readPieceBlockFromFile_isOk hentry h.onDisk begin_.toNat length.toNat
    have hanswers := answers_accepted host peer hopen haccepted hactive hread
    rw [or_iff_right (not_not.mpr haccepted)]
    constructor
    · rintro ⟨hsent, -⟩
      exact (hsent _ (by rw [hanswers]; exact List.mem_singleton_self _)).1
    · intro hin
      refine ⟨fun frame hframe => ⟨hin, ?_⟩, fun hout => absurd hin hout⟩
      have hlen : 0 < length.toNat := by
        have := hin.1
        omega
      have hdata := readPieceBlockFromFile_single h.length_lt h.pl_lt hentry h.onDisk hlen hin.2
      rw [hread] at hdata
      have hblock : block.data =
          (content.drop (index.toNat * pl + begin_.toNat)).take length.toNat :=
        Except.ok.inj hdata
      rw [hanswers, List.mem_singleton] at hframe
      rw [hframe, hblock, take_drop_pieceText hin.2]
  · have hjobs : jobs host t peer c (body (.request index begin_ length)) = [] := by
      rw [jobs_request hopen, if_neg haccepted]
    refine iff_of_true ?_ (Or.inl haccepted)
    unfold answers reads
    rw [hjobs]
    exact ⟨by simp, fun _ => ⟨rfl, by simp⟩⟩

/-- Five bytes in pieces of two; the middle piece is done. -/
def five : Torrent :=
  ⟨3, [1], ⟨2, 1, (singleLoop 2 3 0 0).1 ++ [⟨0, 3, 0, 6, 1⟩]⟩,
    fun path => if path = 0 then some [10, 20, 30, 40, 50] else none⟩

/-- A peer that is interested and not choked. -/
def reader : Server := ⟨⟨false, false, true, true⟩, false, List.replicate 3 false, []⟩

theorem stored_five : Stored 2 [10, 20, 30, 40, 50] five := by
  refine ⟨by decide, by decide, by decide, ⟨0, List.replicate 60 0, by decide, by decide, ?_⟩, rfl⟩
  rfl

/-- The middle piece is served. -/
theorem onlyRequested_five :
    OnlyRequested .littleEndian 2 [10, 20, 30, 40, 50] 1 0 2
        (answers .littleEndian five 7 init.activeRequests reader (body (.request 1 0 2)))
        (reads .littleEndian five 7 init.activeRequests reader (body (.request 1 0 2))) ↔
      ¬ Accepted five 1 ∨ Inside 2 5 1 0 2 :=
  onlyRequested_iff stored_five (show run (step 3) init [] = some init from rfl) (by decide) 1 0 2

/-- Three bytes of the middle piece are asked for, and a byte of the next piece is sent. -/
theorem not_onlyRequested_five :
    Accepted five 1 ∧ ¬ OnlyRequested .littleEndian 2 [10, 20, 30, 40, 50] 1 0 3
        (answers .littleEndian five 7 init.activeRequests reader (body (.request 1 0 3)))
        (reads .littleEndian five 7 init.activeRequests reader (body (.request 1 0 3))) := by
  refine ⟨⟨by decide, by decide⟩, ?_⟩
  rintro ⟨hsent, -⟩
  have hmem : sendBlock .littleEndian 1 0 [30, 40, 50] ∈
      answers .littleEndian five 7 init.activeRequests reader (body (.request 1 0 3)) := by
    decide +kernel
  exact absurd (hsent _ hmem).1.2 (by decide)

end CppTorrent.Upload.Serving
