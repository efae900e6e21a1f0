import CppTorrent.Files.Layout
import CppTorrent.Files.SingleFile
import CppTorrent.Swarm.Steps

/-! # What the bitfield says about the disk

A write job carries two indices: `ArePieceValid` and `SetPiece` use the index of the last piece
message, `WritePieceToFile` the index of the active piece. They are the same only if the message was
about the active piece, which `OnPieceBlock` does not check. And `WritePieceToFile` finds the bytes
that were hashed only if the blocks are even and fill the piece.

`intact_run` is that nothing else can go wrong in a single-file torrent: if every block that is
stored is one of the active piece, and every job that passes the hash check fills its piece with even
blocks, then in every state of every run the bytes on disk of every piece in the bitfield have the
hash of the metainfo, for any hash function, any number of peers and either strategy. -/

namespace CppTorrent.Swarm.DiskIntegrity

open CppTorrent.Files.Blocks CppTorrent.Files.Storage CppTorrent.Files.SingleFile
open CppTorrent.Files.Layout CppTorrent.Lib.ByteFile CppTorrent.Lib.Runs
open CppTorrent.Swarm.Model CppTorrent.Swarm.Steps

variable {n : ℕ}

/-- The range of a piece in a file of length `len`. -/
def rangeOf (pl len i : ℕ) : Window := ⟨i * pl, pieceLen pl len i⟩

/-- The entry of a piece in `info.pieces`. -/
def hashOf (cfg : Config) (i : ℕ) : List UInt8 := (cfg.pieces.drop (i * 20)).take 20

/-- **Disk integrity**: the range of a piece in the bitfield has the hash of the metainfo. -/
def Intact (cfg : Config) (pl len : ℕ) (s : State n) : Prop :=
  ∀ i ∈ s.master.bitfield, ∃ file, s.disk 0 = some file ∧
    cfg.sha1 ((rangeOf pl len i).bytes file) = hashOf cfg i

/-- A block that is stored is one of the active piece; a job that passes the hash check fills its
piece with even blocks. -/
def Matches (cfg : Config) (pl len : ℕ) (s : State n) : Event n → Prop
  | .run p _ => ∀ index begin_ data rest piece offset,
    (s.clients p).strand = .block index begin_ data :: rest →
    (s.clients p).activePiece = some (piece, offset) → piece.index = index
  | .work k sorted => ∀ req, s.master.jobs[k]? = some req →
    arePieceValid cfg req.pieceIndex sorted = true →
    size sorted = pieceLen pl len req.pieceIndex ∧ Even sorted
  | _ => True

/-! ### The blocks on a strand -/

/-- Every queued block has the index of a piece. -/
def BlocksInRange (cfg : Config) (c : Core) : Prop :=
  ∀ index begin_ data, .block index begin_ data ∈ c.strand → index < cfg.total

theorem BlocksInRange.post {cfg : Config} {c : Core} {h : Handler} (hc : BlocksInRange cfg c)
    (hh : ∀ index begin_ data, h = .block index begin_ data → index < cfg.total) :
    BlocksInRange cfg (c.post h) := by
  intro index begin_ data hmem
  rcases List.mem_append.mp hmem with hmem | hmem
  · exact hc index begin_ data hmem
  · exact hh index begin_ data (List.mem_singleton.mp hmem).symm

theorem BlocksInRange.postIfSubscribed {cfg : Config} {c : Core} {h : Handler}
    (hc : BlocksInRange cfg c)
    (hh : ∀ index begin_ data, h = .block index begin_ data → index < cfg.total) :
    BlocksInRange cfg (c.postIfSubscribed h) := by
  unfold Core.postIfSubscribed
  split_ifs
  · exact hc
  · exact hc.post hh

theorem BlocksInRange.disconnect {cfg : Config} {c : Core} (hc : BlocksInRange cfg c) :
    BlocksInRange cfg c.disconnect := by
  unfold Core.disconnect
  split_ifs
  · exact hc
  · exact hc.post (by simp)

theorem BlocksInRange.attempt {cfg : Config} {m m' : Master} {c c' : Core}
    (h : Attempt cfg m c m' c') (hc : BlocksInRange cfg c) : BlocksInRange cfg c' := by
  cases h with
  | keeps => exact hc
  | chooses => exact hc

theorem blocksInRange_response {cfg : Config} {m m' : Master} {c c' : Core}
    {rejected : Message → Bool} {msg : Message} (hc : BlocksInRange cfg c)
    (h : Response cfg m c rejected msg m' c') : BlocksInRange cfg c' := by
  cases h with
  | ignores => exact hc
  | choke => exact BlocksInRange.post hc (by simp)
  | unchoke h => exact BlocksInRange.attempt h hc
  | offer _ h => exact BlocksInRange.attempt h hc
  | rejects => exact hc.disconnect
  | cancels => exact hc.post (by simp)
  | accepts index begin_ data ha =>
    refine hc.post fun index' begin' data' heq => ?_
    cases heq
    exact ha.lt_total

theorem blocksInRange_act {cfg : Config} {m m' : Master} {c c' : Core} {rejected : Message → Bool}
    {h : Handler} (hc : BlocksInRange cfg c) (hact : Act cfg m c rejected h m' c') :
    BlocksInRange cfg c' := by
  cases hact with
  | message h => exact (blocksInRange_response hc h).postIfSubscribed (by simp)
  | completes => exact BlocksInRange.post hc (by simp)
  | clearAndTry h => exact BlocksInRange.attempt h hc
  | timeoutFired => exact hc.post (by simp)
  | pieceTimeout piece hpiece =>
    split_ifs
    · exact hc.postIfSubscribed (by simp)
    · exact (hc.postIfSubscribed (by simp)).post (by simp)
  | tryToRequest h => exact BlocksInRange.attempt h hc
  | cancelIfActive => exact hc.post (by simp)
  | keepAlive h => exact BlocksInRange.attempt h hc
  | disconnect => exact hc.disconnect
  | _ => exact hc

theorem blocksInRange_step {cfg : Config} {s s' : State n} {e : Event n}
    (hs : ∀ p, BlocksInRange cfg (coreOf s p)) (h : step cfg s e = some s') :
    ∀ p, BlocksInRange cfg (coreOf s' p) := by
  refine clients_step (BlocksInRange cfg) hs ?_ ?_ ?_ h
  · rintro c c' hc hq
    cases hq with
    | message => exact BlocksInRange.post hc (by simp)
    | timeout => exact hc.post (by simp)
    | keepAlive => exact hc.post (by simp)
    | disconnect => exact hc.post (by simp)
  · rintro c c' hc ht
    cases ht with
    | nothing => exact hc
    | tryToRequest => exact hc.post (by simp)
    | cancelIfActive => exact hc.post (by simp)
  · rintro p r hd rest rfl hstrand hact
    refine blocksInRange_act (fun index begin_ data hmem => hs p index begin_ data ?_) hact
    rw [hstrand]
    exact List.mem_cons_of_mem hd hmem

/-! ### The disk -/

/-- The file holds the ranges of the pieces in the bitfield, with the hashes of the metainfo. -/
def Stored (cfg : Config) (pl len : ℕ) (bitfield : Finset ℕ) (disk : Disk) : Prop :=
  ∃ file, disk 0 = some file ∧ ∀ i ∈ bitfield,
    i * pl + pieceLen pl len i ≤ file.length ∧
      cfg.sha1 ((rangeOf pl len i).bytes file) = hashOf cfg i

/-- What a run keeps. -/
structure Kept (cfg : Config) (pl len : ℕ) (s : State n) : Prop where
  blocks : ∀ p, BlocksInRange cfg (coreOf s p)
  jobs : ∀ req ∈ s.master.jobs, req.piece.index = req.pieceIndex ∧ req.pieceIndex < cfg.total
  stored : Stored cfg pl len s.master.bitfield s.disk

/-- Ranges of different pieces are apart. -/
theorem apart_of_ne (pl len : ℕ) {i j : ℕ} (h : j ≠ i) :
    j * pl + pieceLen pl len j ≤ i * pl ∨ i * pl + pieceLen pl len i ≤ j * pl := by
  have hle : ∀ i, pieceLen pl len i ≤ pl := fun i => min_le_left _ _
  have hi := hle i
  have hj := hle j
  rcases Nat.lt_or_gt_of_ne h with hlt | hlt
  · have hmul := Nat.mul_le_mul_right pl hlt
    rw [Nat.succ_mul] at hmul
    omega
  · have hmul := Nat.mul_le_mul_right pl hlt
    rw [Nat.succ_mul] at hmul
    omega

/-- Writing a piece stores it and leaves the others alone. -/
theorem Stored.write {cfg : Config} {pl len i : ℕ} {bitfield : Finset ℕ} {disk : Disk}
    {file data : List UInt8}
    (hstored : ∀ j ∈ bitfield, j * pl + pieceLen pl len j ≤ file.length ∧
      cfg.sha1 ((rangeOf pl len j).bytes file) = hashOf cfg j)
    (hlen : data.length = pieceLen pl len i) (hpos : 0 < pieceLen pl len i)
    (hhash : cfg.sha1 data = hashOf cfg i) :
    Stored cfg pl len (insert i bitfield)
      (Function.update disk 0 (some (writeAt (i * pl) data file))) := by
  have hne : data ≠ [] := List.ne_nil_of_length_pos (by omega)
  refine ⟨_, Function.update_self 0 _ disk, fun j hj => ?_⟩
  by_cases hji : j = i
  · subst hji
    rw [length_writeAt _ file hne, rangeOf, ← hlen, bytes_writeAt_self]
    exact ⟨le_max_right _ _, hhash⟩
  · obtain ⟨hin, hj⟩ := hstored j (Finset.mem_of_mem_insert_of_ne hj hji)
    have hapart := apart_of_ne pl len hji
    refine ⟨hin.trans (length_le_length_writeAt _ data file), ?_⟩
    rw [bytes_writeAt_of_apart hin (by rw [hlen]; exact hapart)]
    exact hj

section Single

variable {pl len fuel : ℕ} {pieces : List UInt8} {m : Manager} {sha1 : List UInt8 → List UInt8}
  {optimal : Bool}

/-- Every piece starts before the end of the file. -/
theorem start_lt {i : ℕ} (hpl : 0 < pl) (hpieces : pieces.length = 20 * ((len + pl - 1) / pl))
    (hi : i < pieces.length / 20) : i * pl < len := by
  rw [hpieces, Nat.mul_div_cancel_left _ (by decide)] at hi
  have hmul := (Nat.le_div_iff_mul_le hpl).mp (Nat.succ_le_of_lt hi)
  rw [Nat.succ_mul] at hmul
  omega

theorem kept_step (hpl : 0 < pl) (hpl63 : pl < 2 ^ 63) (hlen : len < 2 ^ 63)
    (hpieces : pieces.length = 20 * ((len + pl - 1) / pl))
    (hm : fillFiles fuel ⟨pl, some len, [], pieces⟩ = .ok m) {s s' : State n} {e : Event n}
    (hs : Kept ⟨m, pieces, sha1, optimal⟩ pl len s)
    (hc : Matches ⟨m, pieces, sha1, optimal⟩ pl len s e)
    (h : step ⟨m, pieces, sha1, optimal⟩ s e = some s') :
    Kept ⟨m, pieces, sha1, optimal⟩ pl len s' := by
  have hblocks := blocksInRange_step hs.blocks h
  cases step_moves h with
  | queues p hp hothers hmaster hdisk =>
    refine ⟨hblocks, ?_, ?_⟩
    · rw [hmaster]
      exact hs.jobs
    · rw [hmaster, hdisk]
      exact hs.stored
  | run p r hd rest hstrand hact hothers hdisk =>
    obtain ⟨hbits, -⟩ := act_master hact
    refine ⟨hblocks, fun req hreq => ?_, ?_⟩
    · rcases mem_jobs_of_act hact hreq with hreq | ⟨index, begin_, data, piece, rfl, hpiece, rfl⟩
      · exact hs.jobs req hreq
      · obtain ⟨⟨piece', offset⟩, hactive, rfl⟩ := Option.map_eq_some_iff.mp hpiece
        refine ⟨hc index begin_ data rest piece' offset hstrand hactive, ?_⟩
        have hmem : .block index begin_ data ∈ (s.clients p).strand :=
          hstrand.symm ▸ List.mem_cons_self
        exact hs.blocks p index begin_ data hmem
    · rw [hbits, hdisk]
      exact hs.stored
  | invalid k sorted req hreq hsort hvalid hcores hdisk hmaster =>
    refine ⟨hblocks, fun req' hreq' => ?_, ?_⟩
    · rw [hmaster] at hreq'
      exact hs.jobs req' (List.mem_of_mem_eraseIdx hreq')
    · rw [hmaster, hdisk]
      exact hs.stored
  | valid k sorted req hreq hsort hvalid hdisk hcores hbits hreqs hjobs =>
    refine ⟨hblocks, fun req' hreq' => ?_, ?_⟩
    · rw [hjobs] at hreq'
      exact hs.jobs req' (List.mem_of_mem_eraseIdx hreq')
    · obtain ⟨hindex, hlt⟩ := hs.jobs req (List.mem_of_getElem? hreq)
      obtain ⟨hsize, heven⟩ := hc req hreq hvalid
      obtain ⟨file, hfile, hstored⟩ := hs.stored
      have hstart := start_lt hpl hpieces hlt
      have hentry := (fillFiles_single hpl hpl63 hlen hm).2.2 req.pieceIndex hlt hstart
      have hwrite := writePieceToFile_single { req.piece with blocks := sorted } hpl63
        (by rw [hindex]; exact hentry) hfile heven (hsize.trans_le (min_le_left _ _))
      rw [hwrite] at hdisk
      rw [hbits, ← Except.ok.inj hdisk]
      dsimp only
      rw [hindex]
      refine Stored.write hstored ?_ ?_ ?_
      · rw [length_contents, hsize]
      · unfold pieceLen
        omega
      · exact of_decide_eq_true hvalid

/-- **The bytes of the pieces in the bitfield are on disk**, in every run whose blocks belong to the
active pieces and whose jobs, where they pass the hash check, fill their pieces. -/
theorem intact_run (hpl : 0 < pl) (hlen : len < 2 ^ 63) (htwo : pl < len)
    (hpieces : pieces.length = 20 * ((len + pl - 1) / pl))
    (hm : fillFiles fuel ⟨pl, some len, [], pieces⟩ = .ok m) {disk : Disk}
    (hdisk : (disk 0).isSome) {es : List (Event n)} {s : State n}
    (hc : Along (step ⟨m, pieces, sha1, optimal⟩) (Matches ⟨m, pieces, sha1, optimal⟩ pl len)
      (init n ⟨m, pieces, sha1, optimal⟩ disk) es)
    (h : run (step ⟨m, pieces, sha1, optimal⟩) (init n ⟨m, pieces, sha1, optimal⟩ disk) es =
      some s) :
    Intact ⟨m, pieces, sha1, optimal⟩ pl len s := by
  have hinit : Kept ⟨m, pieces, sha1, optimal⟩ pl len
      (init n ⟨m, pieces, sha1, optimal⟩ disk) := by
    obtain ⟨file, hfile⟩ := Option.isSome_iff_exists.mp hdisk
    refine ⟨fun p index begin_ data hmem => ?_, fun req hreq => ?_, file, hfile, fun i hi => ?_⟩
    · simp [coreOf, init, access, core] at hmem
    · simp [init] at hreq
    · simp [init] at hi
  have hkept := invariant_of_run (Kept ⟨m, pieces, sha1, optimal⟩ pl len) _
    (fun s e s' hi he hst => kept_step hpl (by omega) hlen hpieces hm hi he hst) hinit hc h
  intro i hi
  obtain ⟨file, hfile, hstored⟩ := hkept.stored
  exact ⟨file, hfile, (hstored i hi).2⟩

end Single

/-- A peer answers with the only block of piece 0. -/
theorem intact_run_answer :
    ∃ s, run (step threeBytes) (init 1 threeBytes threeBytesDisk) (offers 0 ++ answers 0 0 [1, 2]) =
        some s ∧ 0 ∈ s.master.bitfield ∧ s.disk 0 = some [1, 2, 0] ∧ Intact threeBytes 2 3 s := by
  have hrun : run (step threeBytes) (init 1 threeBytes threeBytesDisk)
    (offers 0 ++ answers 0 0 [1, 2]) = some _ := rfl
  have hm : fillFiles 0 ⟨2, some 3, [], threeBytes.pieces⟩ = .ok threeBytes.manager := rfl
  refine ⟨_, rfl, by decide, rfl, intact_run (by decide) (by decide) (by decide) (by decide) hm rfl
    ?_ hrun⟩
  refine along_cons rfl (fun _ _ _ _ _ _ h => nomatch h) <| along_cons rfl trivial <|
    along_cons rfl (fun _ _ _ _ _ _ h => nomatch h) <|
    along_cons rfl (fun _ _ _ _ _ _ h => nomatch h) <| along_cons rfl trivial <|
    along_cons rfl (fun _ _ _ _ _ _ h => nomatch h) <|
    along_cons rfl (fun _ _ _ _ _ _ h => nomatch h) <| along_cons rfl trivial <|
    along_cons rfl (fun _ _ _ _ _ _ h => nomatch h) <|
    along_cons rfl (fun _ _ _ _ _ _ h h' => ?_) <| along_cons rfl (fun _ h _ => ?_) trivial
  · cases h
    cases h'
    rfl
  · cases h
    exact ⟨rfl, 2, [], ⟨[1, 2], 0⟩, rfl, by decide, by simp, le_rfl, fun _ => rfl⟩

/-- Two peers are asked for a piece each. The first one, asked for piece 0, answers with piece 1: it
is written to the range of piece 0, and piece 1 is set. -/
theorem not_intact_other_piece :
    ∃ s, run (step threeBytes) (init 2 threeBytes threeBytesDisk)
        (offers 0 ++ offers 1 ++ answers 0 1 [3]) = some s ∧
      s.disk 0 = some [3, 0, 0] ∧ ¬ Intact threeBytes 2 3 s := by
  refine ⟨_, rfl, rfl, fun h => ?_⟩
  obtain ⟨file, hfile, hhash⟩ := h 1 (by decide)
  cases hfile
  exact absurd hhash (by decide)

end CppTorrent.Swarm.DiskIntegrity
