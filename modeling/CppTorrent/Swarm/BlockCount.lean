import CppTorrent.Swarm.Steps

/-! # Counting blocks

The handler that stores a block counts it, whatever its slot holds. So `current_blocks_num` is the number
of the slots that have data as long as every block brings data to a slot that has none, and a piece
that is complete by this number has data in all its slots (`blocksCounted_throughout_iff`). A block that
arrives twice is counted twice (`not_blocksCounted_twice`). -/

namespace CppTorrent.Swarm.BlockCount

open CppTorrent.Files.Blocks CppTorrent.Files.Storage CppTorrent.Lib.Runs
open CppTorrent.Swarm.Model CppTorrent.Swarm.Steps

variable {n : ℕ}

/-- The number of slots that have received data. -/
def filled (blocks : List Block) : ℕ := blocks.countP fun block => block.data ≠ []

/-- The counter of a piece is right. A piece that was moved into a write job has no blocks. -/
def CountsFilled (piece : Piece) : Prop :=
  piece.blocks ≠ [] → piece.currentBlocksNum = filled piece.blocks

/-- The counters of all active pieces are right, and the pieces handed to `DownloadPiece` have data in
all slots. -/
structure BlocksCounted (s : State n) : Prop where
  counter : ∀ p piece offset, (s.clients p).activePiece = some (piece, offset) → CountsFilled piece
  jobs : ∀ req ∈ s.master.jobs, ∀ block ∈ req.piece.blocks, block.data ≠ []

/-- A block that a handler is about to store brings data to a slot that has none. -/
def FreshSlot (s : State n) : Event n → Prop
  | .run p _ => ∀ index begin_ data rest piece offset slot,
    (s.clients p).strand = .block index begin_ data :: rest →
    (s.clients p).activePiece = some (piece, offset) →
    piece.blocks[begin_ / mostRequestSize]? = some slot → slot.data = [] ∧ data ≠ []
  | _ => True

/-! ### Slots -/

/-- A block fills one more slot exactly if it brings data to a slot that has none. -/
theorem filled_set {blocks : List Block} {k : ℕ} {slot : Block} (h : blocks[k]? = some slot)
    (block : Block) :
    filled (blocks.set k block) = filled blocks + 1 ↔ slot.data = [] ∧ block.data ≠ [] := by
  obtain ⟨hk, hget⟩ := List.getElem?_eq_some_iff.mp h
  have hset := List.countP_set (p := fun block : Block => block.data ≠ []) (a := block) hk
  rw [hget] at hset
  unfold filled
  rw [hset]
  split_ifs with hslot hblock hblock
  · have hpos : 0 < blocks.countP fun block => block.data ≠ [] :=
      List.countP_pos_iff.mpr ⟨slot, List.mem_of_getElem? h, hslot⟩
    exact iff_of_false (by omega) fun h' => of_decide_eq_true hslot h'.1
  · exact iff_of_false (by omega) fun h' => of_decide_eq_true hslot h'.1
  · exact iff_of_true rfl ⟨not_not.mp fun hne => hslot (decide_eq_true hne), of_decide_eq_true hblock⟩
  · exact iff_of_false (by omega) fun h' => hblock (decide_eq_true h'.2)

/-! ### The active piece -/

/-- The active piece stays, is given up, or a new one is chosen. -/
def Replaced (c c' : Core) : Prop :=
  c'.piece = c.piece ∨ c'.piece = none ∨ ∃ i count, c'.piece = some (newPiece i count)

section Act

variable {cfg : Config} {m m' : Master} {c c' : Core} {rejected : Message → Bool}

theorem replaced_attempt (h : Attempt cfg m c m' c') : Replaced c c' := by
  cases h with
  | keeps => exact Or.inl rfl
  | chooses i => exact Or.inr (Or.inr ⟨_, _, rfl⟩)

theorem replaced_response {msg : Message} (h : Response cfg m c rejected msg m' c') :
    Replaced c c' := by
  cases h with
  | unchoke h =>
    have hattempt := replaced_attempt h
    exact hattempt
  | offer _ h => exact replaced_attempt h
  | rejects => exact Or.inl (piece_disconnect c)
  | _ => exact Or.inl rfl

/-- **What a handler can do to the active piece.** -/
theorem act_piece {h : Handler} (hact : Act cfg m c rejected h m' c') :
    ((∀ index begin_ data, h ≠ .block index begin_ data) ∧ m'.jobs = m.jobs ∧ Replaced c c') ∨
    ∃ index begin_ data piece, h = .block index begin_ data ∧ c.piece = some piece ∧
      begin_ / mostRequestSize < piece.blocks.length ∧
      ((c'.piece = some (stored piece begin_ data) ∧ m'.jobs = m.jobs) ∨
        (piece.currentBlocksNum + 1 = piece.blockCount ∧
          c'.piece = some (movedFrom (stored piece begin_ data)) ∧
          m'.jobs = m.jobs ++ [⟨index, stored piece begin_ data⟩])) := by
  cases hact with
  | stores piece index begin_ data h hslot =>
    exact Or.inr ⟨index, begin_, data, piece, rfl, h, hslot, Or.inl ⟨rfl, rfl⟩⟩
  | completes piece index begin_ data h hslot hlast =>
    exact Or.inr ⟨index, begin_, data, piece, rfl, h, hslot, Or.inr ⟨hlast, rfl, rfl⟩⟩
  | message h =>
    refine Or.inl ⟨fun _ _ _ => nofun, (response_master h).2.2, ?_⟩
    unfold Replaced
    rw [piece_postIfSubscribed]
    exact replaced_response h
  | idle hnone hh =>
    refine Or.inl ⟨fun _ _ _ heq => ?_, rfl, Or.inl rfl⟩
    rcases hh with rfl | rfl
    · cases heq
    · cases heq
  | notActive id hid hh =>
    refine Or.inl ⟨fun _ _ _ heq => ?_, rfl, Or.inl rfl⟩
    rcases hh with rfl | rfl
    · cases heq
    · cases heq
  | onChoked piece h => exact Or.inl ⟨fun _ _ _ => nofun, rfl, Or.inr (Or.inl rfl)⟩
  | cancelPiece piece h => exact Or.inl ⟨fun _ _ _ => nofun, rfl, Or.inr (Or.inl rfl)⟩
  | clearAndTry h =>
    refine Or.inl ⟨fun _ _ _ => nofun, (attempt_master h).2.2, ?_⟩
    rcases replaced_attempt h with hnone | hnew
    · exact Or.inr (Or.inl hnone)
    · exact Or.inr hnew
  | tryToRequest h => exact Or.inl ⟨fun _ _ _ => nofun, (attempt_master h).2.2, replaced_attempt h⟩
  | keepAlive h => exact Or.inl ⟨fun _ _ _ => nofun, (attempt_master h).2.2, replaced_attempt h⟩
  | pieceTimeout piece h =>
    refine Or.inl ⟨fun _ _ _ => nofun, rfl, Or.inl ?_⟩
    split_ifs
    · exact piece_postIfSubscribed _ c
    · exact piece_postIfSubscribed _ c
  | disconnect => exact Or.inl ⟨fun _ _ _ => nofun, rfl, Or.inl (piece_disconnect c)⟩
  | _ => exact Or.inl ⟨fun _ _ _ => nofun, rfl, Or.inl rfl⟩

end Act

/-- What is queued on a strand from outside does not touch the active piece. -/
theorem piece_queued {c c' : Core} (h : Queued c c') : c'.piece = c.piece := by
  cases h with
  | _ => rfl

theorem piece_told {cfg : Config} {c c' : Core} (h : Told cfg c c') : c'.piece = c.piece := by
  cases h with
  | _ => rfl

/-- An active piece that is not moved into a write job has as many slots as it counts to. -/
def Shaped (c : Core) : Prop :=
  ∀ piece, c.piece = some piece → piece.blocks ≠ [] → piece.blocks.length = piece.blockCount

theorem shaped_step {cfg : Config} {s s' : State n} {e : Event n} (hs : ∀ p, Shaped (coreOf s p))
    (h : step cfg s e = some s') (q : Fin n) : Shaped (coreOf s' q) := by
  refine clients_step Shaped hs (fun c c' hc hq => ?_) (fun c c' hc ht => ?_)
    (fun p r hd rest _ _ hact => ?_) h q
  · unfold Shaped
    rw [piece_queued hq]
    exact hc
  · unfold Shaped
    rw [piece_told ht]
    exact hc
  · rcases act_piece hact with ⟨-, -, hkeep | hnone | ⟨i, count, hnew⟩⟩ |
      ⟨index, begin_, data, piece, -, hpiece, hslot, ⟨hstored, -⟩ | ⟨-, hmoved, -⟩⟩
    · unfold Shaped
      rw [hkeep]
      exact hs p
    · intro piece hpiece
      rw [hnone] at hpiece
      cases hpiece
    · intro piece hpiece _
      obtain rfl : newPiece i count = piece := Option.some.inj (hnew.symm.trans hpiece)
      exact List.length_replicate
    · intro piece' hpiece' _
      obtain rfl : stored piece begin_ data = piece' := Option.some.inj (hstored.symm.trans hpiece')
      exact (List.length_set ..).trans
        (hs p piece hpiece (List.ne_nil_of_length_pos (Nat.zero_lt_of_lt hslot)))
    · intro piece' hpiece' hne
      obtain rfl : movedFrom (stored piece begin_ data) = piece' :=
        Option.some.inj (hmoved.symm.trans hpiece')
      exact absurd rfl hne

/-! ### A step -/

/-- The counters, by the cores. -/
theorem blocksCounted_iff {s : State n} : BlocksCounted s ↔
    (∀ p piece, (coreOf s p).piece = some piece → CountsFilled piece) ∧
      ∀ req ∈ s.master.jobs, ∀ block ∈ req.piece.blocks, block.data ≠ [] := by
  constructor
  · rintro ⟨hcounter, hjobs⟩
    refine ⟨fun p piece hpiece => ?_, hjobs⟩
    obtain ⟨⟨piece', offset⟩, hact, rfl⟩ := Option.map_eq_some_iff.mp hpiece
    exact hcounter p piece' offset hact
  · rintro ⟨hcounter, hjobs⟩
    exact ⟨fun p piece offset hact => hcounter p piece (Option.map_eq_some_iff.mpr ⟨_, hact, rfl⟩),
      hjobs⟩

theorem countsFilled_newPiece (i count : ℕ) : CountsFilled (newPiece i count) := by
  intro _
  have hzero : filled (newPiece i count).blocks = 0 := by
    refine List.countP_eq_zero.mpr fun block hblock => ?_
    rw [(List.mem_replicate.mp hblock).2]
    decide
  exact hzero.symm

/-- **Storing a block keeps the counter right exactly if** it brings data to a slot that has none. -/
theorem countsFilled_stored_iff {piece : Piece} {begin_ : ℕ} {slot : Block} (data : List UInt8)
    (hcount : CountsFilled piece) (hslot : piece.blocks[begin_ / mostRequestSize]? = some slot) :
    CountsFilled (stored piece begin_ data) ↔ slot.data = [] ∧ data ≠ [] := by
  rw [← filled_set hslot ⟨data, begin_⟩]
  have hpos := Nat.zero_lt_of_lt (List.getElem?_eq_some_iff.mp hslot).1
  have hne : (stored piece begin_ data).blocks ≠ [] :=
    List.ne_nil_of_length_pos (hpos.trans_eq (List.length_set ..).symm)
  rw [← hcount (List.ne_nil_of_length_pos hpos), eq_comm]
  exact ⟨fun h => h hne, fun h _ => h⟩

/-- A piece that is complete has data in all slots exactly if its counter is right. -/
theorem forall_filled_iff {piece : Piece} (hshape : piece.blocks.length = piece.blockCount)
    (hlast : piece.currentBlocksNum = piece.blockCount) (hne : piece.blocks ≠ []) :
    (∀ block ∈ piece.blocks, block.data ≠ []) ↔ CountsFilled piece := by
  have hall : (∀ block ∈ piece.blocks, block.data ≠ []) ↔
      filled piece.blocks = piece.blocks.length := by
    unfold filled
    rw [List.countP_eq_length]
    simp only [decide_eq_true_eq]
  rw [hall, hshape, ← hlast, eq_comm]
  exact ⟨fun h _ => h, fun h => h hne⟩

/-- The block of the next handler, for a slot of the active piece. -/
theorem freshSlot_run_iff {s : State n} {p : Fin n} {r index begin_ : ℕ} {data : List UInt8}
    {rest : List Handler} {piece : Piece} {slot : Block}
    (hstrand : (s.clients p).strand = .block index begin_ data :: rest)
    (hpiece : (coreOf s p).piece = some piece)
    (hget : piece.blocks[begin_ / mostRequestSize]? = some slot) :
    FreshSlot s (.run p r) ↔ slot.data = [] ∧ data ≠ [] := by
  obtain ⟨⟨piece', offset⟩, hact, rfl⟩ := Option.map_eq_some_iff.mp hpiece
  constructor
  · intro hf
    exact hf index begin_ data rest piece' offset slot hstrand hact hget
  · intro hf index' begin' data' rest' piece'' offset' slot' hstrand' hact' hget'
    rw [hstrand] at hstrand'
    cases hstrand'
    rw [hact] at hact'
    cases hact'
    rw [hget] at hget'
    cases hget'
    exact hf

/-- A piece that is completed goes into a job with all its slots filled exactly if its counter is
right. -/
theorem forall_completed_iff {piece : Piece} {begin_ index : ℕ} {data : List UInt8}
    {jobs : List WriteRequest} (hshape : piece.blocks ≠ [] → piece.blocks.length = piece.blockCount)
    (hjobs : ∀ req ∈ jobs, ∀ block ∈ req.piece.blocks, block.data ≠ [])
    (hslot : begin_ / mostRequestSize < piece.blocks.length)
    (hlast : piece.currentBlocksNum + 1 = piece.blockCount) :
    (∀ req ∈ jobs ++ [⟨index, stored piece begin_ data⟩], ∀ block ∈ req.piece.blocks,
      block.data ≠ []) ↔ CountsFilled (stored piece begin_ data) := by
  have hlen : (stored piece begin_ data).blocks.length = piece.blockCount :=
    (List.length_set ..).trans (hshape (List.ne_nil_of_length_pos (Nat.zero_lt_of_lt hslot)))
  have hne : (stored piece begin_ data).blocks ≠ [] := by
    refine List.ne_nil_of_length_pos ?_
    rw [hlen, ← hlast]
    exact Nat.succ_pos _
  rw [← forall_filled_iff hlen hlast hne]
  constructor
  · intro hall
    exact hall _ (List.mem_append_right _ (List.mem_singleton_self _))
  · intro hall req hreq
    rcases List.mem_append.mp hreq with hreq | hreq
    · exact hjobs req hreq
    · rw [List.mem_singleton.mp hreq]
      exact hall

/-- **A step keeps the counters right exactly if** the block it stores, if any, brings data to a slot
that has none. -/
theorem blocksCounted_step_iff {cfg : Config} {s s' : State n} {e : Event n}
    (hshape : ∀ p, Shaped (coreOf s p)) (hcounted : BlocksCounted s) (h : step cfg s e = some s') :
    BlocksCounted s' ↔ FreshSlot s e := by
  obtain ⟨hcounter, hjobs⟩ := blocksCounted_iff.mp hcounted
  rw [blocksCounted_iff]
  cases step_moves h with
  | queues p hp hothers hmaster hdisk he =>
    have hfresh : FreshSlot s e := by
      cases e with
      | run p r => cases he
      | _ => trivial
    refine iff_of_true ⟨fun q => ?_, hmaster ▸ hjobs⟩ hfresh
    by_cases hq : q = p
    · rw [hq, piece_queued hp]
      exact hcounter p
    · rw [hothers q hq]
      exact hcounter q
  | invalid k sorted req hreq hsort hvalid hcores hdisk hmaster =>
    refine iff_of_true ⟨fun q => ?_, fun req' hreq' => ?_⟩ trivial
    · rw [hcores q]
      exact hcounter q
    · rw [hmaster] at hreq'
      exact hjobs req' (List.mem_of_mem_eraseIdx hreq')
  | valid k sorted req hreq hsort hvalid hdisk hcores hbits hreqs hjobs' hready =>
    refine iff_of_true ⟨fun q => ?_, fun req' hreq' => ?_⟩ trivial
    · rw [piece_told (hcores q)]
      exact hcounter q
    · rw [hjobs'] at hreq'
      exact hjobs req' (List.mem_of_mem_eraseIdx hreq')
  | run p r hd rest hstrand hact hothers hdisk =>
    -- the other clients keep their pieces
    have hclients : (∀ q piece, (coreOf s' q).piece = some piece → CountsFilled piece) ↔
        ∀ piece, (coreOf s' p).piece = some piece → CountsFilled piece := by
      refine ⟨fun hall => hall p, fun hp q => ?_⟩
      by_cases hq : q = p
      · rw [hq]
        exact hp
      · rw [piece_told (hothers q hq)]
        exact hcounter q
    rw [hclients]
    rcases act_piece hact with ⟨hblock, hjobs', hreplaced⟩ |
      ⟨index, begin_, data, piece, rfl, hpiece, hslot, hstores⟩
    · refine iff_of_true ⟨fun piece hpiece => ?_, hjobs' ▸ hjobs⟩ fun index begin_ data rest' _ _ _
        hstrand' => ?_
      · rcases hreplaced with hkeep | hnone | ⟨i, count, hnew⟩
        · exact hcounter p piece (hkeep ▸ hpiece)
        · rw [hnone] at hpiece
          cases hpiece
        · obtain rfl : newPiece i count = piece := Option.some.inj (hnew.symm.trans hpiece)
          exact countsFilled_newPiece i count
      · rw [hstrand] at hstrand'
        exact absurd (List.cons.inj hstrand').1 (hblock index begin_ data)
    · -- the block comes to a slot of the active piece
      obtain ⟨slot, hget⟩ : ∃ slot, piece.blocks[begin_ / mostRequestSize]? = some slot :=
        ⟨_, List.getElem?_eq_getElem hslot⟩
      rw [freshSlot_run_iff hstrand hpiece hget,
        ← countsFilled_stored_iff data (hcounter p piece hpiece) hget]
      rcases hstores with ⟨hnew, hjobs'⟩ | ⟨hlast, hnew, hjobs'⟩
      · rw [hjobs', and_iff_left hjobs]
        constructor
        · intro hall
          exact hall _ hnew
        · intro hcount piece' hpiece'
          exact Option.some.inj (hnew.symm.trans hpiece') ▸ hcount
      · have hmoved : ∀ piece', (coreOf s' p).piece = some piece' → CountsFilled piece' := by
          intro piece' hpiece' hne
          obtain rfl : movedFrom (stored piece begin_ data) = piece' :=
            Option.some.inj (hnew.symm.trans hpiece')
          exact absurd rfl hne
        rw [hjobs', and_iff_right hmoved]
        exact forall_completed_iff (hshape p piece hpiece) hjobs hslot hlast

/-! ### Runs -/

theorem start_blocksCounted (cfg : Config) (disk : Disk) :
    (∀ p, Shaped (coreOf (init n cfg disk) p)) ∧ BlocksCounted (init n cfg disk) := by
  refine ⟨fun p piece hpiece => ?_, fun p piece offset hact => ?_, fun req hreq => ?_⟩
  · cases hpiece
  · cases hact
  · cases hreq

/-- **The counters are right in every state of a run exactly if every block that is stored brings data
to a slot that has none**, with either strategy and whatever the other clients do. -/
theorem blocksCounted_throughout_iff (n : ℕ) (cfg : Config) (disk : Disk) (es : List (Event n)) :
    Throughout (step cfg) BlocksCounted (init n cfg disk) es ↔
      Along (step cfg) FreshSlot (init n cfg disk) es := by
  have hstep : ∀ (s : State n) e s', (∀ p, Shaped (coreOf s p)) ∧ BlocksCounted s →
      step cfg s e = some s' → ((∀ p, Shaped (coreOf s' p)) ∧ BlocksCounted s' ↔ FreshSlot s e) := by
    rintro s e s' ⟨hshape, hcounted⟩ h
    rw [← blocksCounted_step_iff hshape hcounted h]
    exact and_iff_right (shaped_step hshape h)
  have hstart := start_blocksCounted (n := n) cfg disk
  have hshape : ∀ k s', run (step cfg) (init n cfg disk) (es.take k) = some s' →
      ∀ p, Shaped (coreOf s' p) := fun k s' hr =>
    invariant_of_run (fun s => ∀ p, Shaped (coreOf s p)) (fun _ _ => True)
      (fun _ _ _ hi _ h => shaped_step hi h) hstart.1 (along_true _ _) hr
  rw [← throughout_iff hstep hstart]
  exact ⟨fun h k s' hr => ⟨hshape k s' hr, h k s' hr⟩, fun h k s' hr => (h k s' hr).2⟩

/-- One piece of 20000 bytes, which has two blocks. -/
def twoBlocks (optimal : Bool) : Config :=
  ⟨⟨20000, 20000, []⟩, List.replicate 20 0, id, optimal⟩

/-- A peer that has the piece unchokes the client and sends the same block twice. -/
def twice (p : Fin n) : List (Event n) :=
  [.run p 0, .arrive p (.bitfield [128]), .run p 0, .run p 0, .arrive p .unchoke, .run p 0,
    .run p 0, .arrive p (.piece 0 0 [1]), .run p 0, .run p 0,
    .run p 0, .arrive p (.piece 0 0 [1]), .run p 0, .run p 0]

/-- With either strategy the block is counted twice, and a piece without data in its second slot is
handed to `DownloadPiece`. -/
theorem not_blocksCounted_twice :
    (∃ s, run (step (twoBlocks false)) (init 1 (twoBlocks false) fun _ => none) (twice 0) = some s ∧
      s.master.jobs = [⟨0, ⟨[⟨[1], 0⟩, ⟨[], 0⟩], 2, 2, 0⟩⟩] ∧ ¬ BlocksCounted s) ∧
    ∃ s, run (step (twoBlocks true)) (init 1 (twoBlocks true) fun _ => none) (twice 0) = some s ∧
      s.master.jobs = [⟨0, ⟨[⟨[1], 0⟩, ⟨[], 0⟩], 2, 2, 0⟩⟩] ∧ ¬ BlocksCounted s :=
  ⟨⟨_, rfl, rfl, fun h => absurd (h.jobs _ List.mem_cons_self) (by decide)⟩,
    ⟨_, rfl, rfl, fun h => absurd (h.jobs _ List.mem_cons_self) (by decide)⟩⟩

end CppTorrent.Swarm.BlockCount
