import CppTorrent.Lib.Ranges
import CppTorrent.Lib.Runs
import CppTorrent.Swarm.Requests

/-! # The requests for a whole piece

`TryToRequestPiece` sends at most 150 requests at a time and is called again when all of them have been
answered. It then goes on at the offset it has come to, but it takes the size of the piece for what is
left of it. So a piece of at most 150 blocks is requested right, and of a larger piece every call
requests 150 full blocks, whether they are in the piece or not.

A `Download` follows one client from the call that chooses the piece on. A step is the answer to a
request that lies inside the piece; the remote peer may answer them in any order. `covers_run_iff` says
for which sizes the requests of the whole run cover the piece. -/

namespace CppTorrent.Swarm.Coverage

open CppTorrent.Files.Blocks CppTorrent.Lib.Ranges CppTorrent.Lib.Runs
open CppTorrent.Swarm.Model CppTorrent.Swarm.Requests CppTorrent.Swarm.Steps

/-- What a full call of `TryToRequestPiece` requests. -/
def window : ℕ := requestMaxQueueSize * mostRequestSize

/-- The offset and the length of a request for a piece. -/
def requestRange (i : ℕ) : Message → Option (ℕ × ℕ)
  | .request index begin_ length => if index = i then some (begin_, length) else none
  | _ => none

/-- The offset and the length of a cancel for a piece. -/
def cancelRange (i : ℕ) : Message → Option (ℕ × ℕ)
  | .cancel index begin_ length => if index = i then some (begin_, length) else none
  | _ => none

/-- The requests for a piece that a client has sent between two of its states. -/
def requestsFor (i : ℕ) (c c' : Client) : List (ℕ × ℕ) :=
  (c'.sent.drop c.sent.length).filterMap (requestRange i)

/-- What `cancel_piece` enumerates for a piece. -/
def cancelsFor (cfg : Config) (i : ℕ) (c : Client) : List (ℕ × ℕ) :=
  ((cancelLoop i (cfg.sizeOf i) (cfg.sizeOf i) 0 c).sent.drop c.sent.length).filterMap (cancelRange i)

/-! ### The run -/

/-- A client that downloads a piece, and the requests inside the piece that have not been answered. -/
structure Download where
  master : Master
  client : Client
  unanswered : List (ℕ × ℕ)

/-- An answer to the request at position `k`; `r` is the random number of a call that chooses. -/
structure Reply where
  k : ℕ
  data : List UInt8
  r : ℕ

/-- Whether a range lies inside a piece. -/
def inside (size : ℕ) (x : ℕ × ℕ) : Bool := decide (x.1 + x.2 ≤ size)

/-- The state after the call that has made `c` to `c'`. -/
def start (cfg : Config) (i : ℕ) (c : Client) (m : Master) (c' : Client) : Download :=
  ⟨m, c', (requestsFor i c c').filter (inside (cfg.sizeOf i))⟩

/-- The handler posted by `OnPieceBlock` for an answer. -/
def step (cfg : Config) (i : ℕ) (d : Download) (a : Reply) : Option Download :=
  match d.unanswered[a.k]? with
  | none => none
  | some (begin_, length) =>
    if a.data.length = length then
      (storeBlock cfg a.r d.master d.client i begin_ a.data).map fun (m, c) =>
        ⟨m, c, d.unanswered.eraseIdx a.k ++
          (requestsFor i d.client c).filter (inside (cfg.sizeOf i))⟩
    else none

/-- The piece is complete, or the remote peer has nothing left to answer. -/
def Finished (d : Download) : Prop :=
  d.unanswered = [] ∨ ∃ piece offset, d.client.activePiece = some (piece, offset) ∧
    piece.currentBlocksNum = piece.blockCount

/-- The requests for a piece cover it exactly once, block by block. -/
structure CoversOnce (size : ℕ) (requests cancels : List (ℕ × ℕ)) : Prop where
  contiguous : Contiguous 0 requests
  lengths : ∀ x ∈ requests, 1 ≤ x.2 ∧ x.2 ≤ mostRequestSize
  inside : ∀ x ∈ requests, x.1 + x.2 ≤ size
  disjoint : requests.Pairwise fun x y => x.1 + x.2 ≤ y.1 ∨ y.1 + y.2 ≤ x.1
  union : ∀ offset, offset < size ↔ ∃ x ∈ requests, x.1 ≤ offset ∧ offset < x.1 + x.2
  number : requests.length = blockCountOf size
  /-- they are those that `cancel_piece` takes back -/
  cancels : cancels = requests

/-! ### The blocks of a piece -/

/-- The blocks of a piece. -/
def blockRanges (size : ℕ) : List (ℕ × ℕ) :=
  (List.range (blockCountOf size)).map fun k =>
    (k * mostRequestSize, min mostRequestSize (size - k * mostRequestSize))

theorem contiguous_blocks (size : ℕ) : ∀ (n k : ℕ), n = blockCountOf (size - k * mostRequestSize) →
    Contiguous (k * mostRequestSize) ((List.range' k n).map fun j =>
        (j * mostRequestSize, min mostRequestSize (size - j * mostRequestSize))) ∧
      total ((List.range' k n).map fun j =>
        (j * mostRequestSize, min mostRequestSize (size - j * mostRequestSize))) =
          size - k * mostRequestSize := by
  intro n
  induction n with
  | zero =>
    intro k hn
    refine ⟨trivial, ?_⟩
    unfold blockCountOf mostRequestSize at hn
    unfold mostRequestSize
    have hzero : total [] = 0 := rfl
    rw [List.range'_zero, List.map_nil, hzero]
    omega
  | succ n ih =>
    intro k hn
    have hmul : (k + 1) * mostRequestSize = k * mostRequestSize + mostRequestSize := by
      rw [Nat.add_mul, Nat.one_mul]
    have hnext : n = blockCountOf (size - (k + 1) * mostRequestSize) := by
      unfold blockCountOf at hn ⊢
      rw [hmul]
      unfold mostRequestSize at *
      omega
    obtain ⟨hcontiguous, htotal⟩ := ih (k + 1) hnext
    rw [List.range'_succ, List.map_cons, total_cons, htotal]
    refine ⟨⟨rfl, ?_⟩, by rw [hmul]; omega⟩
    dsimp only
    rcases Nat.lt_or_ge mostRequestSize (size - k * mostRequestSize) with hlt | hge
    · rw [min_eq_left hlt.le, ← hmul]
      exact hcontiguous
    · -- this is the last block
      have hzero : n = 0 := by
        rw [hnext]
        unfold blockCountOf
        rw [hmul]
        unfold mostRequestSize at *
        omega
      rw [hzero]
      exact trivial

/-- **The blocks of a piece cover it once.** -/
theorem coversOnce_blockRanges (size : ℕ) : CoversOnce size (blockRanges size) (blockRanges size) := by
  have hboth := contiguous_blocks size (blockCountOf size) 0 (by rw [Nat.zero_mul, Nat.sub_zero])
  rw [← List.range_eq_range', Nat.zero_mul, Nat.sub_zero] at hboth
  obtain ⟨hcontiguous, htotal⟩ := hboth
  have hrow : Contiguous 0 (blockRanges size) := hcontiguous
  have hsize : total (blockRanges size) = size := htotal
  refine ⟨hrow, fun x hx => ?_, fun x hx => ?_, ?_, fun offset => ?_, ?_, rfl⟩
  · obtain ⟨k, hk, rfl⟩ := List.mem_map.mp hx
    have hk' := List.mem_range.mp hk
    unfold blockCountOf mostRequestSize at hk'
    dsimp only
    unfold mostRequestSize
    omega
  · have hbounds := hrow.bounds x hx
    omega
  · exact hrow.pairwise.imp fun hle => Or.inl hle
  · rw [hrow.covers, hsize]
    omega
  · unfold blockRanges
    rw [List.length_map, List.length_range]

/-! ### Full calls -/

/-- The ranges of `n` full requests from an offset on, as they are sent. -/
def fullRanges (begin_ n : ℕ) : List (ℕ × ℕ) :=
  (List.range n).map fun k => ((begin_ + k * mostRequestSize) % 2 ^ 32, mostRequestSize)

/-- The requests themselves. -/
def fullRequests (index begin_ n : ℕ) : List Message :=
  (List.range n).map fun k =>
    .request (index % 2 ^ 32) ((begin_ + k * mostRequestSize) % 2 ^ 32) (mostRequestSize % 2 ^ 32)

theorem length_fullRanges (begin_ n : ℕ) : (fullRanges begin_ n).length = n := by
  simp [fullRanges]

theorem total_fullRanges (begin_ n : ℕ) : total (fullRanges begin_ n) = n * mostRequestSize := by
  have hall : ∀ x ∈ fullRanges begin_ n, x.2 = mostRequestSize := by
    intro x hx
    obtain ⟨k, -, rfl⟩ := List.mem_map.mp hx
    rfl
  rw [total_of_forall hall, length_fullRanges]

theorem fullRanges_add (m n : ℕ) :
    fullRanges 0 (m + n) = fullRanges 0 m ++ fullRanges (m * mostRequestSize) n := by
  unfold fullRanges
  rw [List.range_add, List.map_append, List.map_map]
  refine congrArg _ (List.map_congr_left fun k _ => ?_)
  simp only [Function.comp_apply, Nat.zero_add, Nat.add_mul]

theorem fullRanges_succ (begin_ n : ℕ) :
    ∃ rest, fullRanges begin_ (n + 1) = (begin_ % 2 ^ 32, mostRequestSize) :: rest := by
  unfold fullRanges
  rw [List.range_succ_eq_map, List.map_cons, Nat.zero_mul, Nat.add_zero]
  exact ⟨_, rfl⟩

theorem filterMap_fullRequests {i : ℕ} (hi : i < 2 ^ 32) (begin_ n : ℕ) :
    (fullRequests i begin_ n).filterMap (requestRange i) = fullRanges begin_ n := by
  unfold fullRequests fullRanges
  rw [List.filterMap_map, ← List.filterMap_eq_map]
  refine List.filterMap_congr fun k _ => ?_
  have hlen : mostRequestSize % 2 ^ 32 = mostRequestSize := by decide
  simp only [Function.comp_apply, requestRange, Nat.mod_eq_of_lt hi, if_true, hlen]

/-- The loop of `TryToRequestPiece` uses up its budget if the size is large. -/
theorem requestLoop_full (index : ℕ) : ∀ (n pieceSize begin_ : ℕ) {c : Client},
    c.isDisconnected = false → n * mostRequestSize < pieceSize →
    ∃ c', requestLoop index n pieceSize begin_ c =
        (c', pieceSize - n * mostRequestSize, begin_ + n * mostRequestSize, false) ∧
      c'.isDisconnected = false ∧ c'.sent = c.sent ++ fullRequests index begin_ n := by
  intro n
  induction n with
  | zero =>
    intro pieceSize begin_ c hsub _
    refine ⟨c, ?_, hsub, (List.append_nil _).symm⟩
    rw [requestLoop, Nat.zero_mul, Nat.sub_zero, Nat.add_zero]
  | succ n ih =>
    intro pieceSize begin_ c hsub hlarge
    rw [Nat.add_mul, Nat.one_mul] at hlarge
    obtain ⟨hsent, hsub'⟩ := sent_sendRequest hsub index begin_ mostRequestSize
    obtain ⟨c', hloop, hsub'', hsent'⟩ :=
      ih (pieceSize - mostRequestSize) (begin_ + mostRequestSize) hsub' (by omega)
    refine ⟨c', ?_, hsub'', ?_⟩
    · rw [requestLoop, if_pos (by omega), hloop, Nat.add_mul, Nat.one_mul, Nat.sub_sub,
        Nat.add_comm (n * mostRequestSize), Nat.add_assoc]
    · rw [hsent', hsent, List.append_assoc]
      refine congrArg _ ?_
      unfold fullRequests
      rw [List.range_succ_eq_map, List.map_cons, List.map_map, Nat.zero_mul, Nat.add_zero,
        List.singleton_append]
      refine congrArg _ (List.map_congr_left fun k _ => ?_)
      simp only [Function.comp_apply, Nat.succ_eq_add_one, Nat.add_mul, Nat.one_mul]
      rw [Nat.add_assoc, Nat.add_comm mostRequestSize]

/-- **A call for a piece of more than 150 blocks requests 150 full blocks**, wherever it begins. -/
theorem requestBlocks_full {c : Client} (hsub : c.isDisconnected = false) {size : ℕ}
    (hlarge : window < size) (piece : Piece) (begin_ : ℕ) :
    (requestBlocks size piece begin_ c).activePiece = some (piece, begin_ + window) ∧
      (requestBlocks size piece begin_ c).isDisconnected = false ∧
      (requestBlocks size piece begin_ c).sent =
        c.sent ++ fullRequests piece.index begin_ requestMaxQueueSize := by
  obtain ⟨c', hloop, hsub', hsent⟩ :=
    requestLoop_full piece.index requestMaxQueueSize size begin_ hsub hlarge
  unfold requestBlocks
  rw [hloop]
  exact ⟨rfl, hsub', hsent⟩

/-! ### An answer -/

variable {cfg : Config} {i : ℕ} {d d' : Download} {a : Reply}

/-- A call for the active piece. -/
theorem tryToRequestPiece_active {r : ℕ} {m : Master} {c : Client} {piece : Piece} {offset : ℕ}
    (hactive : c.activePiece = some (piece, offset)) :
    tryToRequestPiece cfg r m c = (m, if cfg.sizeOf piece.index = offset then c
      else requestBlocks (cfg.sizeOf piece.index) piece offset c) := by
  unfold tryToRequestPiece
  rw [hactive]
  dsimp only
  split_ifs <;> rfl

/-- What the handler of an answer does to an active piece: it completes the piece, or goes on. -/
theorem storeBlock_cases {r begin_ index : ℕ} {data : List UInt8} {m m' : Master} {c c' : Client}
    {piece : Piece} {offset : ℕ} (hactive : c.activePiece = some (piece, offset))
    (h : storeBlock cfg r m c index begin_ data = some (m', c')) :
    begin_ / mostRequestSize < piece.blocks.length ∧
      ((piece.currentBlocksNum + 1 = piece.blockCount ∧ c'.sent = c.sent ∧
          c'.isDisconnected = c.isDisconnected ∧
          c'.activePiece = some (movedFrom (stored piece begin_ data), offset)) ∨
        (piece.currentBlocksNum + 1 ≠ piece.blockCount ∧
          ((piece.currentBlocksNum + 1) % requestMaxQueueSize = 0 ∧ cfg.sizeOf piece.index ≠ offset ∧
              c' = requestBlocks (cfg.sizeOf piece.index) (stored piece begin_ data) offset
                { c with activePiece := some (stored piece begin_ data, offset) } ∨
            ((piece.currentBlocksNum + 1) % requestMaxQueueSize ≠ 0 ∨ cfg.sizeOf piece.index = offset) ∧
              c' = { c with activePiece := some (stored piece begin_ data, offset) }))) := by
  unfold storeBlock at h
  rw [hactive] at h
  dsimp only at h
  split_ifs at h with hslot hcomplete hagain
  · cases h
    exact ⟨hslot, Or.inl ⟨hcomplete, rfl, rfl, rfl⟩⟩
  · refine ⟨hslot, Or.inr ⟨hcomplete, ?_⟩⟩
    have hcall := Option.some.inj h
    rw [tryToRequestPiece_active rfl] at hcall
    obtain ⟨-, rfl⟩ := Prod.mk.inj hcall
    have hindex : (stored piece begin_ data).index = piece.index := rfl
    rw [hindex]
    by_cases hend : cfg.sizeOf piece.index = offset
    · exact Or.inr ⟨Or.inr hend, by rw [if_pos hend]⟩
    · exact Or.inl ⟨hagain, hend, by rw [if_neg hend]⟩
  · cases h
    exact ⟨hslot, Or.inr ⟨hcomplete, Or.inr ⟨Or.inl hagain, rfl⟩⟩⟩

/-- The answer of a step: its request, and what it leaves unanswered. -/
theorem step_eq_some (h : step cfg i d a = some d') :
    ∃ begin_ length, d.unanswered[a.k]? = some (begin_, length) ∧
      storeBlock cfg a.r d.master d.client i begin_ a.data = some (d'.master, d'.client) ∧
      d'.unanswered = d.unanswered.eraseIdx a.k ++
        (requestsFor i d.client d'.client).filter (inside (cfg.sizeOf i)) := by
  unfold step at h
  split at h
  · cases h
  · next begin_ length hget =>
    split_ifs at h
    obtain ⟨⟨m, c⟩, hstore, rfl⟩ := Option.map_eq_some_iff.mp h
    exact ⟨begin_, length, hget, hstore, rfl⟩

theorem requestsFor_of_sent {c c' : Client} {new : List Message} (h : c'.sent = c.sent ++ new) :
    requestsFor i c c' = new.filterMap (requestRange i) := by
  rw [requestsFor, h, List.drop_left]

/-! ### Small pieces -/

/-- All requests have been sent. -/
structure Requested (i size : ℕ) (c0 : Client) (requests : List (ℕ × ℕ)) (d : Download) : Prop where
  connected : d.client.isDisconnected = false
  active : ∃ piece, d.client.activePiece = some (piece, size) ∧ piece.index = i
  sent : ∃ new, d.client.sent = c0.sent ++ new ∧ new.filterMap (requestRange i) = requests

theorem requested_step {c0 : Client} {requests : List (ℕ × ℕ)}
    (h : Requested i (cfg.sizeOf i) c0 requests d) (hs : step cfg i d a = some d') :
    Requested i (cfg.sizeOf i) c0 requests d' := by
  obtain ⟨begin_, length, -, hstore, -⟩ := step_eq_some hs
  obtain ⟨piece, hactive, rfl⟩ := h.active
  obtain ⟨-, ⟨-, hsent, hsub, hactive'⟩ | ⟨-, ⟨-, hend, -⟩ | ⟨-, hclient⟩⟩⟩ :=
    storeBlock_cases hactive hstore
  · exact ⟨hsub.trans h.connected, ⟨_, hactive', rfl⟩, by rw [hsent]; exact h.sent⟩
  · exact absurd rfl hend
  · refine ⟨?_, ⟨stored piece begin_ a.data, ?_, rfl⟩, ?_⟩
    · rw [hclient]
      exact h.connected
    · rw [hclient]
    · rw [hclient]
      exact h.sent

/-! ### Large pieces -/

/-- A number of calls have been made, each a full one, and `n` answers have been handled. -/
structure Going (i size : ℕ) (c0 : Client) (calls n : ℕ) (d : Download) : Prop where
  connected : d.client.isDisconnected = false
  active : ∃ piece, d.client.activePiece = some (piece, calls * window) ∧ piece.index = i ∧
    piece.blockCount = blockCountOf size ∧ piece.currentBlocksNum = n ∧
    (n < blockCountOf size → piece.blocks.length = blockCountOf size) ∧
    (n = blockCountOf size → piece.blocks = [])
  sent : ∃ new, d.client.sent = c0.sent ++ new ∧
    new.filterMap (requestRange i) = fullRanges 0 (calls * requestMaxQueueSize)
  /-- the last call began inside the piece -/
  begun : calls * window < size + window
  handled : n ≤ blockCountOf size ∧ n + d.unanswered.length ≤ calls * requestMaxQueueSize ∧
    calls * requestMaxQueueSize ≤ n + requestMaxQueueSize
  /-- as long as the piece is not complete, the next call is still to come -/
  more : n < blockCountOf size → n < calls * requestMaxQueueSize
  unanswered : ∀ x ∈ d.unanswered, x.1 < size
  /-- where all requests lie inside the piece, all are answered -/
  open_ : n < blockCountOf size → calls * window ≤ size →
    n + d.unanswered.length = calls * requestMaxQueueSize

theorem lt_blockCountOf_iff (size n : ℕ) : n < blockCountOf size ↔ n * mostRequestSize < size := by
  unfold blockCountOf mostRequestSize
  omega

theorem lt_of_mem_filter_inside {size begin_ n : ℕ} :
    ∀ x ∈ (fullRanges begin_ n).filter (inside size), x.1 < size := by
  intro x hx
  obtain ⟨hmem, hinside⟩ := List.mem_filter.mp hx
  obtain ⟨k, -, rfl⟩ := List.mem_map.mp hmem
  have hle := of_decide_eq_true hinside
  unfold mostRequestSize at *
  omega

theorem length_filter_inside {size begin_ n : ℕ} (h : begin_ + n * mostRequestSize ≤ size) :
    ((fullRanges begin_ n).filter (inside size)).length = n := by
  rw [List.filter_eq_self.mpr, length_fullRanges]
  intro x hx
  obtain ⟨k, hk, rfl⟩ := List.mem_map.mp hx
  have hk' := List.mem_range.mp hk
  -- the offset is sent modulo 2 ^ 32, which makes it no larger
  have hmod := Nat.mod_le (begin_ + k * mostRequestSize) (2 ^ 32)
  have hle : (k + 1) * mostRequestSize ≤ n * mostRequestSize := Nat.mul_le_mul_right _ hk'
  rw [Nat.add_mul, Nat.one_mul] at hle
  unfold inside
  dsimp only
  exact decide_eq_true (by omega)

/-- The answer after which the next call is made. -/
theorem going_again {c0 : Client} {calls n : ℕ} (hi : i < 2 ^ 32) (hlarge : window < cfg.sizeOf i)
    (h : Going i (cfg.sizeOf i) c0 calls n d) (hn : n + 1 < blockCountOf (cfg.sizeOf i))
    (hagain : (n + 1) % requestMaxQueueSize = 0) {k : ℕ} (piece : Piece) {c : Client}
    (hk : k < d.unanswered.length) (hpiece : piece.index = i ∧
      piece.blockCount = blockCountOf (cfg.sizeOf i) ∧ piece.currentBlocksNum = n + 1 ∧
      piece.blocks.length = blockCountOf (cfg.sizeOf i))
    (hsub : c.isDisconnected = false) (hsent : c.sent = d.client.sent)
    (hclient : d'.client = requestBlocks (cfg.sizeOf i) piece (calls * window) c)
    (hunanswered : d'.unanswered = d.unanswered.eraseIdx k ++
      (requestsFor i d.client d'.client).filter (inside (cfg.sizeOf i))) :
    Going i (cfg.sizeOf i) c0 (calls + 1) (n + 1) d' := by
  obtain ⟨rfl, hcount, hnum, hlength⟩ := hpiece
  obtain ⟨hactive', hsub', hsent'⟩ := requestBlocks_full hsub hlarge piece (calls * window)
  rw [← hclient] at hactive' hsub' hsent'
  rw [hsent] at hsent'
  have hcalls : n + 1 = calls * requestMaxQueueSize := by
    have hlt := h.more (by omega)
    have hle := h.handled.2.2
    unfold requestMaxQueueSize at *
    omega
  have hnew : requestsFor piece.index d.client d'.client =
      fullRanges (calls * window) requestMaxQueueSize := by
    rw [requestsFor_of_sent hsent', filterMap_fullRequests hi]
  have hsize : calls * window < cfg.sizeOf piece.index := by
    have hlt := (lt_blockCountOf_iff _ _).mp hn
    rw [hcalls, Nat.mul_assoc] at hlt
    exact hlt
  have hopen := h.open_ (by omega) hsize.le
  have hlen : d'.unanswered.length = d.unanswered.length - 1 +
      ((fullRanges (calls * window) requestMaxQueueSize).filter
        (inside (cfg.sizeOf piece.index))).length := by
    rw [hunanswered, hnew, List.length_append, List.length_eraseIdx_of_lt hk]
  have hfilter := List.length_filter_le (inside (cfg.sizeOf piece.index))
    (fullRanges (calls * window) requestMaxQueueSize)
  rw [length_fullRanges] at hfilter
  refine ⟨hsub', ⟨piece, ?_, rfl, hcount, hnum, fun _ => hlength, fun heq => ?_⟩,
    ?_, ?_, ⟨hn.le, ?_, ?_⟩, fun _ => ?_, fun x hx => ?_, fun _ hwithin => ?_⟩
  · rw [hactive', Nat.add_mul, Nat.one_mul]
  · omega
  · obtain ⟨new, hnewsent, hranges⟩ := h.sent
    refine ⟨new ++ fullRequests piece.index (calls * window) requestMaxQueueSize, ?_, ?_⟩
    · rw [hsent', hnewsent, List.append_assoc]
    · rw [List.filterMap_append, hranges, filterMap_fullRequests hi, Nat.add_mul, Nat.one_mul,
        fullRanges_add, Nat.mul_assoc]
      rfl
  · rw [Nat.add_mul, Nat.one_mul]
    omega
  · rw [Nat.add_mul, Nat.one_mul]
    omega
  · rw [Nat.add_mul, Nat.one_mul]
    omega
  · rw [Nat.add_mul, Nat.one_mul]
    unfold requestMaxQueueSize at *
    omega
  · rw [hunanswered, hnew] at hx
    rcases List.mem_append.mp hx with hx | hx
    · exact h.unanswered x (List.mem_of_mem_eraseIdx hx)
    · exact lt_of_mem_filter_inside x hx
  · rw [Nat.add_mul, Nat.one_mul] at hwithin
    have hall : ((fullRanges (calls * window) requestMaxQueueSize).filter
        (inside (cfg.sizeOf piece.index))).length = requestMaxQueueSize := length_filter_inside hwithin
    rw [Nat.add_mul, Nat.one_mul]
    omega

/-- The answer that completes the piece, and one after which no call is made. -/
theorem going_quiet {c0 : Client} {calls n : ℕ} (h : Going i (cfg.sizeOf i) c0 calls n d)
    (hn : n < blockCountOf (cfg.sizeOf i)) {k : ℕ} (piece : Piece) (hk : k < d.unanswered.length)
    (hactive : d'.client.activePiece = some (piece, calls * window)) (hindex : piece.index = i)
    (hcount : piece.blockCount = blockCountOf (cfg.sizeOf i)) (hnum : piece.currentBlocksNum = n + 1)
    (hblocks : n + 1 < blockCountOf (cfg.sizeOf i) → piece.blocks.length = blockCountOf (cfg.sizeOf i))
    (hmoved : n + 1 = blockCountOf (cfg.sizeOf i) → piece.blocks = [])
    (hmore : n + 1 < blockCountOf (cfg.sizeOf i) → n + 1 < calls * requestMaxQueueSize)
    (hsub : d'.client.isDisconnected = false) (hsent : d'.client.sent = d.client.sent)
    (hunanswered : d'.unanswered = d.unanswered.eraseIdx k ++
      (requestsFor i d.client d'.client).filter (inside (cfg.sizeOf i))) :
    Going i (cfg.sizeOf i) c0 calls (n + 1) d' := by
  have hnew : requestsFor i d.client d'.client = [] := by
    have hnil : d'.client.sent = d.client.sent ++ [] := by rw [hsent, List.append_nil]
    rw [requestsFor_of_sent hnil]
    rfl
  have hlen : d'.unanswered.length = d.unanswered.length - 1 := by
    rw [hunanswered, hnew, List.filter_nil, List.append_nil, List.length_eraseIdx_of_lt hk]
  obtain ⟨-, hle, hge⟩ := h.handled
  refine ⟨hsub, ⟨piece, hactive, hindex, hcount, hnum, hblocks, hmoved⟩, ?_, h.begun,
    ⟨hn, by omega, by omega⟩, hmore, fun x hx => ?_, fun _ hwithin => ?_⟩
  · rw [hsent]
    exact h.sent
  · rw [hunanswered, hnew, List.filter_nil, List.append_nil] at hx
    exact h.unanswered x (List.mem_of_mem_eraseIdx hx)
  · have hopen := h.open_ hn hwithin
    omega

/-- **An answer is counted, and calls for more when its window is full.** -/
theorem going_step {c0 : Client} {calls n : ℕ} (hi : i < 2 ^ 32) (hlarge : window < cfg.sizeOf i)
    (h : Going i (cfg.sizeOf i) c0 calls n d) (hs : step cfg i d a = some d') :
    ∃ calls', Going i (cfg.sizeOf i) c0 calls' (n + 1) d' := by
  obtain ⟨begin_, length, hget, hstore, hunanswered⟩ := step_eq_some hs
  obtain ⟨hk, -⟩ := List.getElem?_eq_some_iff.mp hget
  obtain ⟨piece, hactive, rfl, hcount, rfl, hblocks, hmoved⟩ := h.active
  obtain ⟨hslot, hcases⟩ := storeBlock_cases hactive hstore
  -- a piece that is complete has no slots
  have hn : piece.currentBlocksNum < blockCountOf (cfg.sizeOf piece.index) := by
    refine lt_of_le_of_ne h.handled.1 fun heq => ?_
    rw [hmoved heq] at hslot
    exact absurd hslot (Nat.not_lt_zero _)
  have hlength : (stored piece begin_ a.data).blocks.length =
      blockCountOf (cfg.sizeOf piece.index) := by
    unfold stored
    rw [List.length_set]
    exact hblocks hn
  rcases hcases with ⟨hcomplete, hsent, hsub, hactive'⟩ | ⟨hgoes, hrest⟩
  · rw [hcount] at hcomplete
    refine ⟨calls, going_quiet h hn _ hk hactive' rfl hcount rfl (fun hlt => ?_) (fun _ => rfl)
      (fun hlt => ?_) (hsub.trans h.connected) hsent hunanswered⟩
    · omega
    · omega
  · rw [hcount] at hgoes
    have hnext : piece.currentBlocksNum + 1 < blockCountOf (cfg.sizeOf piece.index) := by omega
    rcases hrest with ⟨hagain, -, hclient⟩ | ⟨hnone, hclient⟩
    · exact ⟨calls + 1, going_again hi hlarge h hnext hagain (stored piece begin_ a.data) hk
        ⟨rfl, hcount, rfl, hlength⟩ (by exact h.connected) (by rfl) hclient hunanswered⟩
    · refine ⟨calls, going_quiet h hn (stored piece begin_ a.data) hk (by rw [hclient]) rfl hcount rfl
        (fun _ => hlength) (fun heq => ?_) (fun _ => ?_) (by rw [hclient]; exact h.connected) (by rw [hclient])
        hunanswered⟩
      · omega
      · -- at the end of the window a call is made, as the piece goes on behind it
        have hlt := h.more hn
        refine lt_of_le_of_ne hlt fun heq => ?_
        have hsize := (lt_blockCountOf_iff _ _).mp hnext
        rw [heq, Nat.mul_assoc] at hsize
        rcases hnone with hmod | hend
        · rw [heq, Nat.mul_mod_left] at hmod
          exact hmod rfl
        · rw [hend] at hsize
          exact Nat.lt_irrefl _ hsize

/-! ### The first call -/

theorem requestRange_eq (i : ℕ) (msg : Message) :
    requestRange i msg = (requestOf msg).bind fun x => if x.1 = i then some x.2 else none := by
  cases msg <;> rfl

theorem filterMap_requestRange (i : ℕ) (msgs : List Message) :
    msgs.filterMap (requestRange i) =
      (msgs.filterMap requestOf).filterMap fun x => if x.1 = i then some x.2 else none := by
  rw [List.filterMap_filterMap]
  exact List.filterMap_congr fun msg _ => requestRange_eq i msg

section Start

variable {r : ℕ} {m m' : Master} {c c' : Client} {piece : Piece} {offset : ℕ}

/-- The call that has chosen a piece of at most 150 blocks. -/
theorem requested_start (hcall : tryToRequestPiece cfg r m c = (m', c'))
    (hnone : c.activePiece = none) (hsub : c.isDisconnected = false)
    (hchosen : c'.activePiece = some (piece, offset)) (hpos : 0 < cfg.sizeOf piece.index)
    (hsmall : cfg.sizeOf piece.index ≤ window) :
    Requested piece.index (cfg.sizeOf piece.index) c (blockRanges (cfg.sizeOf piece.index))
      (start cfg piece.index c m' c') := by
  obtain ⟨hi, -, c1, before, hsub1, hbefore, hno, rfl⟩ :=
    tryToRequestPiece_chosen hcall hnone hsub hchosen
  obtain ⟨hactive, hsent⟩ := requestBlocks_new (i := piece.index) hsub1 hpos hsmall
  refine ⟨?_, ⟨_, hactive, rfl⟩, ?_⟩
  · have hcore := congrArg Core.isDisconnected (core_requestBlocks (cfg.sizeOf piece.index)
      (newPiece piece.index (blockCountOf (cfg.sizeOf piece.index))) 0 c1)
    exact hcore.trans hsub1
  · refine ⟨before ++ requestsFrom piece.index (cfg.sizeOf piece.index) 0
      (blockCountOf (cfg.sizeOf piece.index)), ?_, ?_⟩
    · rw [← List.append_assoc, ← hbefore]
      exact hsent
    · rw [filterMap_requestRange, List.filterMap_append, hno, List.nil_append,
        filterMap_requestsFrom hi hsmall, List.filterMap_map, blockRanges, ← List.filterMap_eq_map]
      refine List.filterMap_congr fun k _ => ?_
      simp only [Function.comp_apply, if_true]

/-- The call that has chosen a larger piece. -/
theorem going_start (hcall : tryToRequestPiece cfg r m c = (m', c'))
    (hnone : c.activePiece = none) (hsub : c.isDisconnected = false)
    (hchosen : c'.activePiece = some (piece, offset)) (hlarge : window < cfg.sizeOf piece.index) :
    Going piece.index (cfg.sizeOf piece.index) c 1 0 (start cfg piece.index c m' c') := by
  obtain ⟨hi, -, c1, before, hsub1, hbefore, hno, rfl⟩ :=
    tryToRequestPiece_chosen hcall hnone hsub hchosen
  obtain ⟨hactive, hsub', hsent⟩ := requestBlocks_full hsub1 hlarge
    (newPiece piece.index (blockCountOf (cfg.sizeOf piece.index))) 0
  have hnew : (requestBlocks (cfg.sizeOf piece.index) (newPiece piece.index
      (blockCountOf (cfg.sizeOf piece.index))) 0 c1).sent =
        c.sent ++ (before ++ fullRequests piece.index 0 requestMaxQueueSize) := by
    rw [← List.append_assoc, ← hbefore]
    exact hsent
  have hranges : (before ++ fullRequests piece.index 0 requestMaxQueueSize).filterMap
      (requestRange piece.index) = fullRanges 0 requestMaxQueueSize := by
    rw [List.filterMap_append, filterMap_requestRange piece.index before, hno, List.filterMap_nil,
      List.nil_append, filterMap_fullRequests hi]
  have hunanswered : (start cfg piece.index c m' (requestBlocks (cfg.sizeOf piece.index)
      (newPiece piece.index (blockCountOf (cfg.sizeOf piece.index))) 0 c1)).unanswered =
        (fullRanges 0 requestMaxQueueSize).filter (inside (cfg.sizeOf piece.index)) := by
    rw [start, requestsFor_of_sent hnew, hranges]
  have hfilter : ((fullRanges 0 requestMaxQueueSize).filter
      (inside (cfg.sizeOf piece.index))).length = requestMaxQueueSize := by
    refine length_filter_inside ?_
    rw [Nat.zero_add]
    exact hlarge.le
  have hblocks : 0 < blockCountOf (cfg.sizeOf piece.index) := by
    rw [lt_blockCountOf_iff]
    omega
  refine ⟨hsub', ⟨newPiece piece.index (blockCountOf (cfg.sizeOf piece.index)), ?_, rfl, rfl, rfl,
    fun _ => List.length_replicate, fun hzero => ?_⟩,
    ⟨_, hnew, ?_⟩, ?_, ⟨Nat.zero_le _, ?_, ?_⟩, fun _ => ?_, fun x hx => ?_, fun _ _ => ?_⟩
  · rw [Nat.one_mul]
    exact hactive.trans (by rw [Nat.zero_add])
  · omega
  · rw [hranges, Nat.one_mul]
  · omega
  · rw [hunanswered, hfilter]
    omega
  · omega
  · unfold requestMaxQueueSize
    omega
  · rw [hunanswered] at hx
    exact lt_of_mem_filter_inside x hx
  · rw [hunanswered, hfilter]
    omega

end Start

/-! ### The cancels -/

/-- The ranges as `send_request` and `send_cancel` send them. -/
def sentRanges (l : List (ℕ × ℕ)) : List (ℕ × ℕ) := l.map fun x => (x.1 % 2 ^ 32, x.2 % 2 ^ 32)

theorem sent_sendCancel {c : Client} (hsub : c.isDisconnected = false) (index begin_ length : ℕ) :
    (sendCancel index begin_ length c).sent =
        c.sent ++ [.cancel (index % 2 ^ 32) (begin_ % 2 ^ 32) (length % 2 ^ 32)] ∧
      (sendCancel index begin_ length c).isDisconnected = false := by
  unfold sendCancel Client.send
  rw [hsub]
  exact ⟨rfl, rfl⟩

/-- The loop of `cancel_piece` goes over the blocks of the piece. -/
theorem sent_cancelLoop (index size : ℕ) : ∀ (fuel k : ℕ) {c : Client}, c.isDisconnected = false →
    k * mostRequestSize < size → size - k * mostRequestSize ≤ fuel →
    ∃ new, (cancelLoop index fuel (size - k * mostRequestSize) (k * mostRequestSize) c).sent =
        c.sent ++ new ∧
      new = (List.range' k (blockCountOf (size - k * mostRequestSize))).map fun j =>
        .cancel (index % 2 ^ 32) (j * mostRequestSize % 2 ^ 32)
          (min mostRequestSize (size - j * mostRequestSize) % 2 ^ 32) := by
  intro fuel
  induction fuel with
  | zero =>
    intro k c _ hk hfuel
    omega
  | succ fuel ih =>
    intro k c hsub hk hfuel
    obtain ⟨hsent, hsub'⟩ := sent_sendCancel hsub index (k * mostRequestSize) mostRequestSize
    have hnext : (k + 1) * mostRequestSize = k * mostRequestSize + mostRequestSize := by
      rw [Nat.add_mul, Nat.one_mul]
    rw [cancelLoop]
    split_ifs with hmore
    · have hblock : 0 < mostRequestSize := by decide
      obtain ⟨new, hnew, rfl⟩ := ih (k + 1) hsub' (by omega) (by omega)
      have hmin : min mostRequestSize (size - k * mostRequestSize) = mostRequestSize := by omega
      refine ⟨_, ?_, rfl⟩
      rw [hnext, ← Nat.sub_sub] at hnew
      rw [hnew, hsent, blockCountOf_of_lt hmore, List.range'_succ, List.map_cons, hmin,
        List.append_assoc, List.singleton_append, hnext, ← Nat.sub_sub]
    · -- the last block
      have hcount : blockCountOf (size - k * mostRequestSize) = 1 :=
        blockCountOf_of_le (by omega) (Nat.le_of_not_lt hmore)
      have hmin : min mostRequestSize (size - k * mostRequestSize) = size - k * mostRequestSize := by
        omega
      refine ⟨_, (sent_sendCancel hsub _ _ _).1, ?_⟩
      rw [hcount, List.range'_one, List.map_singleton, hmin]

/-- **What `cancel_piece` enumerates** are the blocks of the piece. -/
theorem cancelsFor_eq {c : Client} (hi : i < 2 ^ 32) (hsub : c.isDisconnected = false)
    (hpos : 0 < cfg.sizeOf i) : cancelsFor cfg i c = sentRanges (blockRanges (cfg.sizeOf i)) := by
  obtain ⟨new, hnew, hranges⟩ := sent_cancelLoop i (cfg.sizeOf i) (cfg.sizeOf i) 0 hsub
    (by omega) (by omega)
  rw [Nat.zero_mul, Nat.sub_zero] at hnew hranges
  rw [cancelsFor, hnew, List.drop_left, hranges, sentRanges, blockRanges, List.map_map,
    List.filterMap_map, ← List.filterMap_eq_map, List.range_eq_range']
  refine List.filterMap_congr fun k _ => ?_
  simp only [Function.comp_apply, cancelRange, Nat.mod_eq_of_lt hi, if_true]

/-- Where the piece ends below 2 ^ 32, the ranges are sent as they are. -/
theorem sentRanges_blockRanges {size : ℕ} (hsize : size ≤ 2 ^ 32) :
    sentRanges (blockRanges size) = blockRanges size := by
  unfold sentRanges
  refine (List.map_congr_left fun x hx => ?_).trans (List.map_id _)
  obtain ⟨k, hk, rfl⟩ := List.mem_map.mp hx
  have hlt := (lt_blockCountOf_iff size k).mp (List.mem_range.mp hk)
  have hbegin : k * mostRequestSize % 2 ^ 32 = k * mostRequestSize := Nat.mod_eq_of_lt (by omega)
  dsimp only [id]
  rw [hbegin, block_length_mod]

/-! ### The end of the run -/

/-- A finished run has requested up to the end of the piece, or beyond. -/
theorem size_le_of_finished {size : ℕ} {c0 : Client} {calls n : ℕ} (h : Going i size c0 calls n d)
    (hfinished : Finished d) : size ≤ calls * window := by
  obtain ⟨hn, hle, -⟩ := h.handled
  rcases Nat.lt_or_ge n (blockCountOf size) with hlt | hge
  · rcases hfinished with hempty | ⟨piece, offset, hactive, hcomplete⟩
    · -- all requests of a call inside the piece would be answered
      by_contra hinside
      have hall := h.open_ hlt (by omega)
      have hmore := h.more hlt
      rw [hempty, List.length_nil] at hall
      omega
    · obtain ⟨piece', hactive', -, hcount, hnum, -⟩ := h.active
      rw [hactive] at hactive'
      obtain ⟨rfl, -⟩ := Prod.mk.inj (Option.some.inj hactive')
      omega
  · -- all blocks have been received
    have hblocks : size ≤ blockCountOf size * mostRequestSize := by
      have hnot := (lt_blockCountOf_iff size (blockCountOf size)).not.mp (Nat.lt_irrefl _)
      omega
    have hcalls : blockCountOf size * mostRequestSize ≤
        calls * requestMaxQueueSize * mostRequestSize := Nat.mul_le_mul_right _ (by omega)
    rw [Nat.mul_assoc] at hcalls
    exact hblocks.trans hcalls

/-- Full requests that end at 2 ^ 32 or before are the blocks of their piece. -/
theorem fullRanges_eq_blockRanges {n : ℕ} (h : n * mostRequestSize ≤ 2 ^ 32) :
    fullRanges 0 n = blockRanges (n * mostRequestSize) := by
  have hcount : blockCountOf (n * mostRequestSize) = n := by
    unfold blockCountOf mostRequestSize
    omega
  unfold fullRanges blockRanges
  rw [hcount]
  refine List.map_congr_left fun k hk => ?_
  have hle : (k + 1) * mostRequestSize ≤ n * mostRequestSize :=
    Nat.mul_le_mul_right _ (List.mem_range.mp hk)
  rw [Nat.add_mul, Nat.one_mul] at hle
  have hmod : (0 + k * mostRequestSize) % 2 ^ 32 = k * mostRequestSize := by
    rw [Nat.zero_add]
    refine Nat.mod_eq_of_lt ?_
    unfold mostRequestSize at *
    omega
  rw [hmod, min_eq_left (by omega)]

/-- More full requests than end there begin again at 0. -/
theorem le_of_contiguous_fullRanges {n : ℕ} (h : Contiguous 0 (fullRanges 0 n)) :
    n * mostRequestSize ≤ 2 ^ 32 := by
  by_contra hlarge
  have hn : n = 2 ^ 18 + ((n - 2 ^ 18 - 1) + 1) := by
    unfold mostRequestSize at hlarge
    omega
  rw [hn, fullRanges_add, contiguous_append, total_fullRanges] at h
  obtain ⟨rest, hrest⟩ := fullRanges_succ (2 ^ 18 * mostRequestSize) (n - 2 ^ 18 - 1)
  rw [hrest] at h
  have hzero : 2 ^ 18 * mostRequestSize % 2 ^ 32 = 0 + 2 ^ 18 * mostRequestSize := h.2.1
  unfold mostRequestSize at hzero
  omega

/-- **The requests of a finished run for a large piece cover it exactly if it is a multiple of what a
call requests**, and no offset of a request is too large to be sent. -/
theorem coversOnce_going_iff {c0 : Client} {calls n : ℕ} (hi : i < 2 ^ 32)
    (hlarge : window < cfg.sizeOf i) (h : Going i (cfg.sizeOf i) c0 calls n d)
    (hfinished : Finished d) :
    CoversOnce (cfg.sizeOf i) (requestsFor i c0 d.client) (cancelsFor cfg i d.client) ↔
      window ∣ cfg.sizeOf i ∧ cfg.sizeOf i ≤ 2 ^ 32 := by
  obtain ⟨new, hsent, hranges⟩ := h.sent
  rw [requestsFor_of_sent hsent, hranges, cancelsFor_eq hi h.connected (by omega)]
  have hassoc : calls * requestMaxQueueSize * mostRequestSize = calls * window := Nat.mul_assoc _ _ _
  constructor
  · intro hcovers
    have htotal := hcovers.contiguous.total_eq hcovers.union
    rw [total_fullRanges, hassoc] at htotal
    refine ⟨⟨calls, by rw [← htotal, Nat.mul_comm]⟩, ?_⟩
    rw [← htotal, ← hassoc]
    exact le_of_contiguous_fullRanges hcovers.contiguous
  · rintro ⟨⟨q, hq⟩, hsize⟩
    -- the last call began inside the piece, and the requests have come to its end
    have hle := size_le_of_finished h hfinished
    have hbegun := h.begun
    have hpos : 0 < window := by decide
    have hcalls : calls = q := by
      rw [hq, Nat.mul_comm window q] at hle hbegun
      have h1 : q ≤ calls := Nat.le_of_mul_le_mul_right hle hpos
      have h2 : calls < q + 1 := by
        refine Nat.lt_of_mul_lt_mul_right (a := window) ?_
        rw [Nat.add_mul, Nat.one_mul]
        exact hbegun
      omega
    have hend : calls * requestMaxQueueSize * mostRequestSize = cfg.sizeOf i := by
      rw [hassoc, hq, hcalls, Nat.mul_comm]
    rw [fullRanges_eq_blockRanges (by omega), hend, sentRanges_blockRanges hsize]
    exact coversOnce_blockRanges _

/-- The runs of a large piece come to an end. -/
theorem going_finishes {c0 : Client} (hi : i < 2 ^ 32) (hlarge : window < cfg.sizeOf i) :
    ∀ (left calls n : ℕ) {d : Download}, blockCountOf (cfg.sizeOf i) - n ≤ left →
      Going i (cfg.sizeOf i) c0 calls n d →
      ∃ es d' calls' n', run (step cfg i) d es = some d' ∧ Finished d' ∧
        Going i (cfg.sizeOf i) c0 calls' n' d' := by
  intro left
  induction left with
  | zero =>
    intro calls n d hleft h
    obtain ⟨piece, hactive, -, hcount, hnum, -⟩ := h.active
    have hn := h.handled.1
    exact ⟨[], d, calls, n, rfl, Or.inr ⟨piece, _, hactive, by omega⟩, h⟩
  | succ left ih =>
    intro calls n d hleft h
    by_cases hfinished : Finished d
    · exact ⟨[], d, calls, n, rfl, hfinished, h⟩
    obtain ⟨piece, hactive, hindex, hcount, hnum, hblocks, -⟩ := h.active
    have hn : n < blockCountOf (cfg.sizeOf i) := by
      refine lt_of_le_of_ne h.handled.1 fun heq => hfinished (Or.inr ⟨piece, _, hactive, ?_⟩)
      omega
    cases hopen : d.unanswered with
    | nil => exact absurd (Or.inl hopen) hfinished
    | cons x rest =>
      -- the first request is answered
      have hslot : x.1 / mostRequestSize < piece.blocks.length := by
        have hlt := h.unanswered x (by rw [hopen]; exact List.mem_cons_self)
        rw [hblocks hn, lt_blockCountOf_iff]
        have hdiv := Nat.div_mul_le_self x.1 mostRequestSize
        omega
      have hstore : (storeBlock cfg 0 d.master d.client i x.1 (List.replicate x.2 0)).isSome := by
        unfold storeBlock
        rw [hactive]
        dsimp only
        rw [if_pos hslot]
        split_ifs <;> rfl
      obtain ⟨⟨m, c⟩, hsome⟩ := Option.isSome_iff_exists.mp hstore
      have hstep : step cfg i d ⟨0, List.replicate x.2 0, 0⟩ = some ⟨m, c, d.unanswered.eraseIdx 0 ++
          (requestsFor i d.client c).filter (inside (cfg.sizeOf i))⟩ := by
        unfold step
        rw [hopen]
        dsimp only [List.getElem?_cons_zero]
        rw [if_pos List.length_replicate, hsome]
        rfl
      obtain ⟨calls1, h1⟩ := going_step hi hlarge h hstep
      obtain ⟨es, d', calls', n', hrun, hdone, h'⟩ := ih calls1 (n + 1) (by omega) h1
      refine ⟨⟨0, List.replicate x.2 0, 0⟩ :: es, d', calls', n', ?_, hdone, h'⟩
      rw [run, hstep]
      exact hrun

/-! ### The requests for a whole piece -/

section Main

variable {r : ℕ} {m m' : Master} {c c' : Client} {piece : Piece} {offset : ℕ} {es : List Reply}

/-- **The requests for a piece cover it exactly once if it has at most 150 blocks or is a multiple of
150 full ones**, and otherwise they do not; an offset that is sent has 32 bits. -/
theorem covers_run_iff (hcall : tryToRequestPiece cfg r m c = (m', c'))
    (hnone : c.activePiece = none) (hsub : c.isDisconnected = false)
    (hchosen : c'.activePiece = some (piece, offset)) (hpos : 0 < cfg.sizeOf piece.index)
    (hrun : run (step cfg piece.index) (start cfg piece.index c m' c') es = some d)
    (hfinished : Finished d) :
    CoversOnce (cfg.sizeOf piece.index) (requestsFor piece.index c d.client)
        (cancelsFor cfg piece.index d.client) ↔
      cfg.sizeOf piece.index ≤ window ∨
        (window ∣ cfg.sizeOf piece.index ∧ cfg.sizeOf piece.index ≤ 2 ^ 32) := by
  obtain ⟨hi, -⟩ := tryToRequestPiece_chosen hcall hnone hsub hchosen
  rcases Nat.lt_or_ge window (cfg.sizeOf piece.index) with hlarge | hsmall
  · have hgoing : ∃ calls n, Going piece.index (cfg.sizeOf piece.index) c calls n d := by
      refine invariant_of_run
        (fun d => ∃ calls n, Going piece.index (cfg.sizeOf piece.index) c calls n d) (fun _ _ => True)
        (fun d a d' hi' _ hs => ?_) ⟨1, 0, going_start hcall hnone hsub hchosen hlarge⟩
        (along_true _ _) hrun
      obtain ⟨calls, n, h⟩ := hi'
      obtain ⟨calls', h'⟩ := going_step hi hlarge h hs
      exact ⟨calls', n + 1, h'⟩
    obtain ⟨calls, n, h⟩ := hgoing
    rw [coversOnce_going_iff hi hlarge h hfinished, or_iff_right (not_le.mpr hlarge)]
  · have hrequested : Requested piece.index (cfg.sizeOf piece.index) c
        (blockRanges (cfg.sizeOf piece.index)) d :=
      invariant_of_run (Requested piece.index (cfg.sizeOf piece.index) c
        (blockRanges (cfg.sizeOf piece.index))) (fun _ _ => True)
        (fun _ _ _ hi' _ hs => requested_step hi' hs)
        (requested_start hcall hnone hsub hchosen hpos hsmall) (along_true _ _) hrun
    obtain ⟨new, hsent, hranges⟩ := hrequested.sent
    have hle : cfg.sizeOf piece.index ≤ 2 ^ 32 := by
      unfold window requestMaxQueueSize mostRequestSize at hsmall
      omega
    refine iff_of_true ?_ (Or.inl hsmall)
    rw [requestsFor_of_sent hsent, hranges, cancelsFor_eq hi hrequested.connected hpos,
      sentRanges_blockRanges hle]
    exact coversOnce_blockRanges _

end Main

/-- A client that has been unchoked by a peer with piece 0. -/
def unchokedClient (cfg : Config) : Client := { access cfg with peerChoking := false, pieces := {0} }

/-- A master peer that has no piece. -/
def newMaster : Master := ⟨∅, ∅, 0, false, []⟩

/-- The second block is answered first. -/
def swapped : List Reply := [⟨1, [7], 0⟩, ⟨0, List.replicate 16384 1, 0⟩]

/-- Two requests, which are answered in the other order. -/
theorem covers_run_swapped :
    ∃ m' c' d, tryToRequestPiece twoBlocks 0 newMaster (unchokedClient twoBlocks) = (m', c') ∧
      run (step twoBlocks 0) (start twoBlocks 0 (unchokedClient twoBlocks) m' c') swapped = some d ∧
      CoversOnce 16385 (requestsFor 0 (unchokedClient twoBlocks) d.client)
        (cancelsFor twoBlocks 0 d.client) := by
  have htest : ((run (step twoBlocks 0) (start twoBlocks 0 (unchokedClient twoBlocks)
      (tryToRequestPiece twoBlocks 0 newMaster (unchokedClient twoBlocks)).1
      (tryToRequestPiece twoBlocks 0 newMaster (unchokedClient twoBlocks)).2) swapped).any fun d =>
        decide (d.unanswered = [])) = true := by
    decide +kernel
  obtain ⟨d, hrun, hanswered⟩ := (Option.any_eq_true _ _).mp htest
  have hchosen : (tryToRequestPiece twoBlocks 0 newMaster (unchokedClient twoBlocks)).2.activePiece =
      some (newPiece 0 2, 16385) := rfl
  have hcall : tryToRequestPiece twoBlocks 0 newMaster (unchokedClient twoBlocks) = (_, _) :=
    Prod.mk.eta.symm
  have hsize : twoBlocks.sizeOf 0 = 16385 := rfl
  refine ⟨_, _, d, hcall, hrun, ?_⟩
  have hfinished : Finished d := Or.inl (of_decide_eq_true hanswered)
  exact (covers_run_iff hcall rfl rfl hchosen (hsize ▸ Nat.succ_pos _) hrun hfinished).mpr
    (Or.inl (hsize ▸ by decide))

/-- A torrent whose first piece has one byte more than 150 blocks. -/
def oneMore : Config :=
  { threeBytes with manager := { threeBytes.manager with pieceSize := 150 * 16384 + 1 } }

/-- The second call for the first piece goes on behind its end. -/
theorem not_covers_oneMore :
    ∃ m' c' es d, tryToRequestPiece oneMore 0 newMaster (unchokedClient oneMore) = (m', c') ∧
      run (step oneMore 0) (start oneMore 0 (unchokedClient oneMore) m' c') es = some d ∧ Finished d ∧
      ¬ CoversOnce (oneMore.sizeOf 0) (requestsFor 0 (unchokedClient oneMore) d.client)
        (cancelsFor oneMore 0 d.client) := by
  have hchoose : choosePiece oneMore 0 newMaster (sendInterested (unchokedClient oneMore)) =
      (some 0, newMaster.mark 0) := rfl
  have hcall : tryToRequestPiece oneMore 0 newMaster (unchokedClient oneMore) =
      (newMaster.mark 0, requestBlocks (oneMore.sizeOf 0) (newPiece 0 (blockCountOf (oneMore.sizeOf 0))) 0
        (sendInterested (unchokedClient oneMore))) := by
    have hcard : ¬ newMaster.bitfield.card = oneMore.total := by decide
    have hnone : (unchokedClient oneMore).activePiece = none := rfl
    have hchoking : ¬ (unchokedClient oneMore).peerChoking = true := by decide
    have hinterested : ¬ (unchokedClient oneMore).amInterested = true := by decide
    unfold tryToRequestPiece
    rw [hnone]
    dsimp only
    rw [if_neg hcard, if_neg hchoking, if_neg hinterested, hchoose]
  have hlarge : window < oneMore.sizeOf 0 := by decide
  have hactive := (requestBlocks_full
    (show (sendInterested (unchokedClient oneMore)).isDisconnected = false from rfl) hlarge
    (newPiece 0 (blockCountOf (oneMore.sizeOf 0))) 0).1
  have hstart := going_start hcall rfl rfl hactive hlarge
  obtain ⟨es, d, calls, n, hrun, hfinished, hgoing⟩ :=
    going_finishes (by decide) hlarge _ 1 0 le_rfl hstart
  refine ⟨_, _, es, d, hcall, hrun, hfinished, fun hcovers => ?_⟩
  have hdvd := ((coversOnce_going_iff (by decide) hlarge hgoing hfinished).mp hcovers).1
  revert hdvd
  decide

end CppTorrent.Swarm.Coverage
