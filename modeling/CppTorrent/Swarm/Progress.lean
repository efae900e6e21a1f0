import CppTorrent.Swarm.DiskIntegrity

/-! # The progress counter

A write job that passes the hash check sets the bit of its piece and increments the counter of the
torrent. Setting a bit twice changes nothing, so the counter runs ahead of the bitfield as soon as two
jobs of one piece pass the check. `counted_throughout_iff` says that nothing else goes wrong: in a run
of a torrent that is started empty or completed, the counter is the number of set bits in every state
exactly if no job that passes the check finds its bit set.

Two jobs of one piece do not need the end game: a piece that times out is free for other peers while
its last block is still queued (`not_counted_late_answer`). -/

namespace CppTorrent.Swarm.Progress

open CppTorrent.Files.Blocks CppTorrent.Files.Storage CppTorrent.Lib.Runs
open CppTorrent.Swarm.Model CppTorrent.Swarm.Steps CppTorrent.Swarm.DiskIntegrity

variable {n : ℕ}

/-- The bits that `Torrent::Torrent` sets in the bitfield. -/
def readyPieces (cfg : Config) (isCompleted : Bool) : Finset ℕ :=
  if isCompleted then Finset.range cfg.total else ∅

/-- A torrent after its constructor, with `n` clients after `access`. -/
def started (n : ℕ) (cfg : Config) (disk : Disk) (isCompleted : Bool) : State n where
  clients := fun _ =>
    { access cfg with sent := [.bitfield (getCast cfg.total (readyPieces cfg isCompleted))] }
  master := ⟨readyPieces cfg isCompleted, ∅, if isCompleted then cfg.total else 0, false, []⟩
  disk := disk

/-- **The counter agrees with the bitfield**: it is the number of set bits, it does not exceed the
number of pieces, and it is that number exactly if the download is complete. -/
def Counted (cfg : Config) (s : State n) : Prop :=
  s.master.readyPiecesNum = s.master.bitfield.card ∧ s.master.readyPiecesNum ≤ cfg.total ∧
    (s.master.readyPiecesNum = cfg.total ↔ s.master.bitfield = Finset.range cfg.total)

/-- A job that passes the hash check does not find its bit set. -/
def Fresh (cfg : Config) (s : State n) : Event n → Prop
  | .work k sorted => ∀ req, s.master.jobs[k]? = some req →
    arePieceValid cfg req.pieceIndex sorted = true → req.pieceIndex ∉ s.master.bitfield
  | _ => True

/-! ### Indices in range -/

/-- The queued blocks, the jobs and the bits have indices of pieces. -/
structure InRange (cfg : Config) (s : State n) : Prop where
  blocks : ∀ p, BlocksInRange cfg (coreOf s p)
  jobs : ∀ req ∈ s.master.jobs, req.pieceIndex < cfg.total
  bits : s.master.bitfield ⊆ Finset.range cfg.total

theorem inRange_started (cfg : Config) (disk : Disk) (isCompleted : Bool) :
    InRange cfg (started n cfg disk isCompleted) := by
  refine ⟨fun p index begin_ data hmem => ?_, fun req hreq => ?_, ?_⟩
  · have hread : .block index begin_ data ∈ [Handler.read] := hmem
    simp at hread
  · cases hreq
  · change readyPieces cfg isCompleted ⊆ Finset.range cfg.total
    unfold readyPieces
    split_ifs
    · exact Finset.Subset.refl _
    · exact Finset.empty_subset _

theorem inRange_step {cfg : Config} {s s' : State n} {e : Event n} (hs : InRange cfg s)
    (h : step cfg s e = some s') : InRange cfg s' := by
  have hblocks := blocksInRange_step hs.blocks h
  cases step_moves h with
  | queues p hp hothers hmaster =>
    refine ⟨hblocks, ?_, ?_⟩
    · rw [hmaster]
      exact hs.jobs
    · rw [hmaster]
      exact hs.bits
  | run p r hd rest hstrand hact =>
    obtain ⟨hbits, -⟩ := act_master hact
    refine ⟨hblocks, fun req hreq => ?_, hbits ▸ hs.bits⟩
    rcases mem_jobs_of_act hact hreq with hreq | ⟨index, begin_, data, piece, rfl, -, rfl⟩
    · exact hs.jobs req hreq
    · have hmem : .block index begin_ data ∈ (s.clients p).strand :=
        hstrand.symm ▸ List.mem_cons_self
      exact hs.blocks p index begin_ data hmem
  | invalid k sorted req hreq hsort hvalid hcores hdisk hmaster =>
    refine ⟨hblocks, fun req' hreq' => ?_, ?_⟩
    · rw [hmaster] at hreq'
      exact hs.jobs req' (List.mem_of_mem_eraseIdx hreq')
    · rw [hmaster]
      exact hs.bits
  | valid k sorted req hreq hsort hvalid hdisk hcores hbits hreqs hjobs =>
    refine ⟨hblocks, fun req' hreq' => ?_, ?_⟩
    · rw [hjobs] at hreq'
      exact hs.jobs req' (List.mem_of_mem_eraseIdx hreq')
    · rw [hbits]
      refine Finset.insert_subset (Finset.mem_range.mpr ?_) hs.bits
      exact hs.jobs req (List.mem_of_getElem? hreq)

/-! ### The counter -/

/-- What the counter says of the whole bitfield follows from the number of set bits. -/
theorem counted_iff {cfg : Config} {s : State n} (hs : InRange cfg s) :
    Counted cfg s ↔ s.master.readyPiecesNum = s.master.bitfield.card := by
  refine ⟨fun h => h.1, fun h => ⟨h, ?_, ?_⟩⟩
  · rw [h]
    exact (Finset.card_le_card hs.bits).trans_eq (Finset.card_range cfg.total)
  · rw [h]
    constructor
    · intro hcard
      refine Finset.eq_of_subset_of_card_le hs.bits ?_
      rw [Finset.card_range, hcard]
    · intro hall
      rw [hall, Finset.card_range]

theorem counted_started (cfg : Config) (disk : Disk) (isCompleted : Bool) :
    Counted cfg (started n cfg disk isCompleted) := by
  rw [counted_iff (inRange_started cfg disk isCompleted)]
  change (if isCompleted then cfg.total else 0) = (readyPieces cfg isCompleted).card
  unfold readyPieces
  split_ifs
  · exact (Finset.card_range cfg.total).symm
  · exact Finset.card_empty.symm

/-- **A step keeps the counter exactly if its job finds its bit not set.** -/
theorem counted_step_iff {cfg : Config} {s s' : State n} {e : Event n} (hs : InRange cfg s)
    (hc : Counted cfg s) (h : step cfg s e = some s') : Counted cfg s' ↔ Fresh cfg s e := by
  rw [counted_iff (inRange_step hs h)]
  have hcard := hc.1
  cases step_moves h with
  | queues p hp hothers hmaster hdisk he =>
    have hfresh : Fresh cfg s e := by
      cases e with
      | work k sorted => cases he
      | _ => trivial
    rw [hmaster]
    exact iff_of_true hcard hfresh
  | run p r hd rest hstrand hact =>
    obtain ⟨hbits, hready, -⟩ := act_master hact
    rw [hbits, hready]
    exact iff_of_true hcard trivial
  | invalid k sorted req hreq hsort hvalid hcores hdisk hmaster =>
    have hfresh : Fresh cfg s (.work k sorted) := by
      intro req' hreq' hvalid'
      obtain rfl : req = req' := Option.some.inj (hreq.symm.trans hreq')
      rw [hvalid] at hvalid'
      cases hvalid'
    rw [hmaster]
    exact iff_of_true hcard hfresh
  | valid k sorted req hreq hsort hvalid hdisk hcores hbits hreqs hjobs hready =>
    have hfresh : Fresh cfg s (.work k sorted) ↔ req.pieceIndex ∉ s.master.bitfield := by
      constructor
      · intro hf
        exact hf req hreq hvalid
      · intro hnot req' hreq' _
        obtain rfl : req = req' := Option.some.inj (hreq.symm.trans hreq')
        exact hnot
    rw [hfresh, hready, hbits, hcard]
    by_cases hmem : req.pieceIndex ∈ s.master.bitfield
    · rw [Finset.insert_eq_of_mem hmem]
      exact iff_of_false (by omega) (not_not.mpr hmem)
    · rw [Finset.card_insert_of_notMem hmem]
      exact iff_of_true rfl hmem

/-- **The counter agrees with the bitfield in every state of a run exactly if no job that passes the
hash check finds its bit set.** -/
theorem counted_throughout_iff (cfg : Config) (disk : Disk) (isCompleted : Bool)
    (es : List (Event n)) :
    Throughout (step cfg) (Counted cfg) (started n cfg disk isCompleted) es ↔
      Along (step cfg) (Fresh cfg) (started n cfg disk isCompleted) es := by
  have hstep : ∀ (s : State n) e s', InRange cfg s ∧ Counted cfg s → step cfg s e = some s' →
      (InRange cfg s' ∧ Counted cfg s' ↔ Fresh cfg s e) := by
    rintro s e s' ⟨hs, hc⟩ h
    rw [← counted_step_iff hs hc h]
    exact and_iff_right (inRange_step hs h)
  have hstart := inRange_started (n := n) cfg disk isCompleted
  rw [← throughout_iff hstep ⟨hstart, counted_started cfg disk isCompleted⟩]
  have hrange : ∀ k s', run (step cfg) (started n cfg disk isCompleted) (es.take k) = some s' →
      InRange cfg s' := fun k s' hr =>
    invariant_of_run (InRange cfg) (fun _ _ => True) (fun _ _ _ hi _ h => inRange_step hi h) hstart
      (along_true _ _) hr
  exact ⟨fun h k s' hr => ⟨hrange k s' hr, h k s' hr⟩, fun h k s' hr => (h k s' hr).2⟩

/-- The second of two peers has piece 0 and unchokes its client, which finds no piece to ask for if
piece 0 is requested from the first. -/
def secondOffers : List (Event 2) :=
  [.run 1 0, .arrive 1 (.bitfield [128]), .run 1 0, .run 1 0, .arrive 1 .unchoke, .run 1 0, .run 1 0]

/-- The wait for piece 0 times out when the answer has just arrived, and both are handled: the piece is
free again, and the second client is told; then the block is stored and completes the piece. The second
client asks for piece 0 and gets it, and both jobs are executed. -/
def answeredLate : List (Event 2) :=
  [.run 0 0, .expire 0, .arrive 0 (.piece 0 0 [1, 2]), .run 0 0, .run 0 0, .run 0 0, .run 0 0,
    .run 1 0, .arrive 1 (.piece 0 0 [1, 2]), .run 1 0, .run 1 0,
    .work 0 [⟨[1, 2], 0⟩], .work 0 [⟨[1, 2], 0⟩]]

/-- Piece 0 is requested from the first peer, whose answer is late. -/
def lateAnswer : List (Event 2) := offers 0 ++ secondOffers ++ answeredLate

/-- Two pieces are counted, and one bit is set. -/
theorem not_counted_late_answer :
    ∃ s, run (step threeBytes) (started 2 threeBytes threeBytesDisk false) lateAnswer = some s ∧
      s.master.readyPiecesNum = 2 ∧ s.master.bitfield = {0} ∧ ¬ Counted threeBytes s := by
  refine ⟨_, rfl, rfl, by decide, fun h => ?_⟩
  exact absurd h.1 (by decide)

end CppTorrent.Swarm.Progress
