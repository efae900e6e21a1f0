import CppTorrent.Swarm.Steps

/-! # The requests for a piece

`TryToRequestPiece` cuts the piece it has chosen into blocks and requests them one after the other. A
piece of at most 150 blocks is requested in one call (`requestsSent_chosen`). -/

namespace CppTorrent.Swarm.Requests

open CppTorrent.Files.Blocks CppTorrent.Swarm.Model CppTorrent.Swarm.Steps

/-- The requests for the blocks `k`, `k + 1`, … of a piece. -/
def requestsFrom (index size k count : ℕ) : List Message :=
  (List.range' k count).map fun j =>
    .request (index % 2 ^ 32) (j * mostRequestSize % 2 ^ 32)
      (min mostRequestSize (size - j * mostRequestSize) % 2 ^ 32)

/-- Behind a full block there is one block less. -/
theorem blockCountOf_of_lt {size k : ℕ} (h : mostRequestSize < size - k * mostRequestSize) :
    blockCountOf (size - k * mostRequestSize) =
      blockCountOf (size - (k + 1) * mostRequestSize) + 1 := by
  unfold blockCountOf
  rw [Nat.add_mul, Nat.one_mul]
  unfold mostRequestSize at *
  omega

theorem blockCountOf_of_le {size : ℕ} (hpos : 0 < size) (hle : size ≤ mostRequestSize) :
    blockCountOf size = 1 := by
  unfold blockCountOf
  unfold mostRequestSize at *
  omega

theorem sent_sendRequest {c : Client} (hsub : c.isDisconnected = false) (index begin_ length : ℕ) :
    (sendRequest index begin_ length c).sent =
        c.sent ++ [.request (index % 2 ^ 32) (begin_ % 2 ^ 32) (length % 2 ^ 32)] ∧
      (sendRequest index begin_ length c).isDisconnected = false := by
  unfold sendRequest Client.send
  rw [hsub]
  exact ⟨rfl, rfl⟩

/-- The loop of `TryToRequestPiece` stops before the last block, which is requested after it. -/
theorem sent_requestLoop (index size : ℕ) : ∀ (reqCount k : ℕ) {c : Client},
    c.isDisconnected = false → k * mostRequestSize < size →
    size - k * mostRequestSize ≤ reqCount * mostRequestSize →
    ∃ c' rest begin_, requestLoop index reqCount (size - k * mostRequestSize) (k * mostRequestSize) c =
        (c', rest, begin_, true) ∧ begin_ + rest = size ∧
      (sendRequest index begin_ rest c').sent =
        c.sent ++ requestsFrom index size k (blockCountOf (size - k * mostRequestSize)) := by
  intro reqCount
  induction reqCount with
  | zero =>
    intro k c _ hk hsize
    omega
  | succ reqCount ih =>
    intro k c hsub hk hsize
    rw [requestLoop]
    split_ifs with hmore
    · -- a full block, and the loop goes on
      obtain ⟨hsent, hsub'⟩ := sent_sendRequest hsub index (k * mostRequestSize) mostRequestSize
      have hnext : (k + 1) * mostRequestSize = k * mostRequestSize + mostRequestSize := by
        rw [Nat.add_mul, Nat.one_mul]
      obtain ⟨c', rest, begin_, hloop, hend, hsent'⟩ := ih (k + 1) hsub' (by omega) (by
        rw [Nat.add_mul] at hsize
        omega)
      rw [hnext, ← Nat.sub_sub] at hloop
      refine ⟨c', rest, begin_, hloop, hend, ?_⟩
      have hmin : min mostRequestSize (size - k * mostRequestSize) = mostRequestSize := by omega
      rw [hsent', hsent, blockCountOf_of_lt hmore, requestsFrom, requestsFrom, List.range'_succ,
        List.map_cons, hmin, List.append_assoc, List.singleton_append]
    · -- the last block
      refine ⟨c, _, _, rfl, by omega, ?_⟩
      have hcount : blockCountOf (size - k * mostRequestSize) = 1 :=
        blockCountOf_of_le (by omega) (Nat.le_of_not_lt hmore)
      have hmin : min mostRequestSize (size - k * mostRequestSize) = size - k * mostRequestSize := by
        omega
      rw [(sent_sendRequest hsub _ _ _).1, hcount, requestsFrom, List.range'_one, List.map_singleton,
        hmin]

/-- The index, offset and length that a request asks for. -/
def requestOf : Message → Option (ℕ × ℕ × ℕ)
  | .request index begin_ length => some (index, begin_, length)
  | _ => none

/-- The requests that a client has sent between two of its states. -/
def requestsSent (c c' : Client) : List (ℕ × ℕ × ℕ) :=
  (c'.sent.drop c.sent.length).filterMap requestOf

theorem mem_piecesIds_lt {cfg : Config} {m : Master} {c : Client} {i : ℕ}
    (h : i ∈ piecesIds cfg m c) : i < 2 ^ 32 ∧ i < cfg.total := by
  obtain ⟨j, rfl, hj, -⟩ := mem_piecesIds h
  exact ⟨Nat.mod_lt j (by decide), (Nat.mod_le j _).trans_lt hj⟩

theorem choosePiece_some {cfg : Config} {r i : ℕ} {m m' : Master} {c : Client}
    (h : choosePiece cfg r m c = (some i, m')) : i < 2 ^ 32 ∧ i < cfg.total := by
  unfold choosePiece at h
  dsimp only at h
  split at h
  · cases h
  · next j hget =>
    cases h
    exact mem_piecesIds_lt (List.mem_of_getElem? hget)

theorem activePiece_send (msg : Message) (c : Client) : (c.send msg).activePiece = c.activePiece := by
  unfold Client.send
  split_ifs <;> rfl

/-- The blocks of a new piece are requested. -/
theorem requestBlocks_new {c : Client} {i size : ℕ} (hsub : c.isDisconnected = false) (hpos : 0 < size)
    (hsize : size ≤ requestMaxQueueSize * mostRequestSize) :
    (requestBlocks size (newPiece i (blockCountOf size)) 0 c).activePiece =
        some (newPiece i (blockCountOf size), size) ∧
      (requestBlocks size (newPiece i (blockCountOf size)) 0 c).sent =
        c.sent ++ requestsFrom i size 0 (blockCountOf size) := by
  obtain ⟨c', rest, begin_, hloop, hend, hsent⟩ := sent_requestLoop i size requestMaxQueueSize 0 hsub
    (by omega) (by omega)
  rw [Nat.zero_mul, Nat.sub_zero] at hloop hsent
  have hindex : (newPiece i (blockCountOf size)).index = i := rfl
  unfold requestBlocks
  rw [hindex, hloop]
  dsimp only
  rw [if_pos rfl]
  exact ⟨by rw [← hend], hsent⟩

/-- The length of a block is sent as it is. -/
theorem block_length_mod (size k : ℕ) :
    min mostRequestSize (size - k * mostRequestSize) % 2 ^ 32 =
      min mostRequestSize (size - k * mostRequestSize) := by
  refine Nat.mod_eq_of_lt ?_
  unfold mostRequestSize
  omega

theorem filterMap_requestsFrom {i size : ℕ} (hi : i < 2 ^ 32)
    (hsize : size ≤ requestMaxQueueSize * mostRequestSize) :
    (requestsFrom i size 0 (blockCountOf size)).filterMap requestOf =
      (List.range (blockCountOf size)).map fun k =>
        (i, k * mostRequestSize, min mostRequestSize (size - k * mostRequestSize)) := by
  unfold requestsFrom
  rw [List.filterMap_map, ← List.filterMap_eq_map, ← List.range_eq_range']
  refine List.filterMap_congr fun k hk => ?_
  have hk := List.mem_range.mp hk
  unfold blockCountOf at hk
  unfold requestMaxQueueSize at hsize
  have hbegin : k * mostRequestSize % 2 ^ 32 = k * mostRequestSize := by
    refine Nat.mod_eq_of_lt ?_
    unfold mostRequestSize at *
    omega
  simp only [Function.comp_apply, requestOf, Nat.mod_eq_of_lt hi, hbegin, block_length_mod]

/-- A client that has just chosen a piece has requested the blocks of a new one, after messages that
are no requests. -/
theorem tryToRequestPiece_chosen {cfg : Config} {r : ℕ} {m m' : Master} {c c' : Client} {piece : Piece}
    {offset : ℕ} (hcall : tryToRequestPiece cfg r m c = (m', c')) (hnone : c.activePiece = none)
    (hsub : c.isDisconnected = false) (hchosen : c'.activePiece = some (piece, offset)) :
    piece.index < 2 ^ 32 ∧ piece.index < cfg.total ∧ ∃ c1 before, c1.isDisconnected = false ∧
      c1.sent = c.sent ++ before ∧ before.filterMap requestOf = [] ∧
      c' = requestBlocks (cfg.sizeOf piece.index)
        (newPiece piece.index (blockCountOf (cfg.sizeOf piece.index))) 0 c1 := by
  -- what is sent before the requests
  obtain ⟨c1, hc1, hact1, hsub1, before, hbefore, hno⟩ : ∃ c1 : Client,
      (if c.amInterested then c else sendInterested c) = c1 ∧ c1.activePiece = none ∧
      c1.isDisconnected = false ∧
      ∃ before, c1.sent = c.sent ++ before ∧ before.filterMap requestOf = [] := by
    refine ⟨_, rfl, ?_⟩
    split_ifs
    · exact ⟨hnone, hsub, [], by simp, rfl⟩
    · unfold sendInterested Client.send
      rw [hsub]
      exact ⟨hnone, rfl, [.interested], rfl, rfl⟩
  unfold tryToRequestPiece at hcall
  rw [hnone] at hcall
  dsimp only at hcall
  rw [hc1] at hcall
  split_ifs at hcall with hall hchoke
  · cases hcall
    rw [sendNotInterested, activePiece_send, hnone] at hchosen
    cases hchosen
  · cases hcall
    rw [hnone] at hchosen
    cases hchosen
  · cases hchoose : choosePiece cfg r m c1 with
    | mk found m1 =>
      rw [hchoose] at hcall
      cases found with
      | none =>
        cases hcall
        rw [hact1] at hchosen
        cases hchosen
      | some i =>
        obtain ⟨hi, htotal⟩ := choosePiece_some hchoose
        dsimp only at hcall
        obtain ⟨rfl, rfl⟩ := Prod.mk.inj hcall
        -- the piece has the index that was chosen
        have hindex : piece.index = i := by
          have hcore := core_requestBlocks (cfg.sizeOf i)
            (newPiece i (blockCountOf (cfg.sizeOf i))) 0 c1
          have hpiece := congrArg Core.piece hcore
          simp only [core, hchosen, Option.map_some, Option.some.injEq] at hpiece
          rw [hpiece]
          rfl
        subst hindex
        exact ⟨hi, htotal, c1, before, hsub1, hbefore, hno, rfl⟩

/-- **The requests for a piece that a client has just chosen** are those of its blocks. The offset is
then that of the end, so no more requests are sent for the piece. -/
theorem requestsSent_chosen {cfg : Config} {r : ℕ} {m m' : Master} {c c' : Client} {piece : Piece}
    {offset : ℕ} (hcall : tryToRequestPiece cfg r m c = (m', c')) (hnone : c.activePiece = none)
    (hsub : c.isDisconnected = false) (hchosen : c'.activePiece = some (piece, offset))
    (hpos : 0 < cfg.sizeOf piece.index)
    (hsize : cfg.sizeOf piece.index ≤ requestMaxQueueSize * mostRequestSize) :
    piece = newPiece piece.index (blockCountOf (cfg.sizeOf piece.index)) ∧
      offset = cfg.sizeOf piece.index ∧ piece.index < cfg.total ∧
      requestsSent c c' = (List.range (blockCountOf (cfg.sizeOf piece.index))).map fun k =>
        (piece.index, k * mostRequestSize,
          min mostRequestSize (cfg.sizeOf piece.index - k * mostRequestSize)) := by
  obtain ⟨hi, htotal, c1, before, hsub1, hbefore, hno, rfl⟩ :=
    tryToRequestPiece_chosen hcall hnone hsub hchosen
  obtain ⟨hactive, hsent⟩ := requestBlocks_new (i := piece.index) hsub1 hpos hsize
  rw [hactive] at hchosen
  obtain ⟨hpiece, hoffset⟩ := Prod.mk.inj (Option.some.inj hchosen)
  refine ⟨hpiece.symm, hoffset.symm, htotal, ?_⟩
  rw [requestsSent, hsent, hbefore, List.append_assoc, List.drop_left, List.filterMap_append, hno,
    List.nil_append, filterMap_requestsFrom hi hsize]

end CppTorrent.Swarm.Requests
