import CppTorrent.Swarm.ReadOrder

/-! # Storing a block

`OnPieceBlock` compares the index of a piece message with the set of all requested pieces, and posts
a handler that stores the block in the active piece of the client. `BlockSafe` says that this is
possible: there is an active piece, it is the one of the message, and it has the slot of the block.

Nothing in `OnPieceBlock` looks at the active piece, so the handler is safe only if the message was
about it. `blockSafe_run` is that this is all that can go wrong: if every accepted message is about
the active piece of its client, has a slot in it, and no cancel of the piece is queued already, every
handler is safe when it runs, with either strategy and in the end game, whatever chokes, timeouts and
other peers do in between. -/

namespace CppTorrent.Swarm.BlockSafety

open CppTorrent.Files.Blocks CppTorrent.Files.Storage CppTorrent.Lib.Runs
open CppTorrent.Swarm.Model CppTorrent.Swarm.Steps CppTorrent.Swarm.ReadOrder

variable {n : ℕ}

/-- The client has the piece active and the block has a slot in it. -/
def BlockSafe (index begin_ : ℕ) (c : Client) : Prop :=
  ∃ piece offset, c.activePiece = some (piece, offset) ∧ piece.index = index ∧
    begin_ / mostRequestSize < piece.blocks.length

/-- An accepted piece message is about a block of the active piece, no cancel of which is queued. -/
def Answers (cfg : Config) (s : State n) : Event n → Prop
  | .run p _ => ∀ index begin_ data rest,
    (s.clients p).strand = .message (.piece index begin_ data) :: rest →
    Accepts cfg s.master index data →
    BlockSafe index begin_ (s.clients p) ∧ .cancelPiece index ∉ rest
  | _ => True

/-- `BlockSafe` for the core of a client. -/
def SafeAt (index begin_ : ℕ) (c : Core) : Prop :=
  ∃ piece, c.piece = some piece ∧ piece.index = index ∧
    begin_ / mostRequestSize < piece.blocks.length

theorem blockSafe_iff {index begin_ : ℕ} {c : Client} :
    BlockSafe index begin_ c ↔ SafeAt index begin_ (core c) := by
  simp only [BlockSafe, SafeAt, core, Option.map_eq_some_iff]
  constructor
  · rintro ⟨piece, offset, hact, hrest⟩
    exact ⟨piece, ⟨(piece, offset), hact, rfl⟩, hrest⟩
  · rintro ⟨piece, ⟨⟨piece', offset⟩, hact, rfl⟩, hrest⟩
    exact ⟨piece', offset, hact, hrest⟩

/-- Every queued block is safe, and no cancel of its piece is queued before it. -/
structure Guarded (c : Core) : Prop where
  safe : ∀ index begin_ data, .block index begin_ data ∈ c.strand → SafeAt index begin_ c
  order : c.strand.Pairwise fun a b =>
    ∀ index begin_ data, b = .block index begin_ data → a ≠ .cancelPiece index

theorem Guarded.of_no_block {c : Core}
    (h : ∀ index begin_ data, .block index begin_ data ∉ c.strand) : Guarded c := by
  refine ⟨fun index begin_ data hmem => absurd hmem (h index begin_ data), ?_⟩
  refine List.Pairwise.imp_of_mem ?_ (List.pairwise_of_forall fun _ _ => trivial)
  rintro a b - hb - index begin_ data rfl
  exact absurd hb (h index begin_ data)

theorem Guarded.of_loopOf {c : Core} {l : List Handler} (hl : loopOf c.strand = l)
    (h : ∀ index begin_ data, .block index begin_ data ∉ l) : Guarded c :=
  .of_no_block fun index begin_ data => not_mem_of_loopOf hl rfl (h index begin_ data)

theorem Guarded.congr {c c' : Core} (hc : Guarded c) (hp : c'.piece = c.piece)
    (hs : c'.strand = c.strand) : Guarded c' := by
  refine ⟨fun index begin_ data hmem => ?_, hs ▸ hc.order⟩
  obtain ⟨piece, hpiece, hrest⟩ := hc.safe index begin_ data (hs ▸ hmem)
  exact ⟨piece, hp.trans hpiece, hrest⟩

/-- The handlers posted by `OnPieceBlock`. -/
def isBlock : Handler → Bool
  | .block _ _ _ => true
  | _ => false

theorem Guarded.post {c : Core} {h : Handler} (hc : Guarded c) (hh : isBlock h = false) :
    Guarded (c.post h) := by
  have hne : ∀ index begin_ data, h ≠ .block index begin_ data := by
    rintro index begin_ data rfl
    exact absurd hh Bool.noConfusion
  refine ⟨fun index begin_ data hmem => ?_, ?_⟩
  · rcases List.mem_append.mp hmem with hmem | hmem
    · exact hc.safe index begin_ data hmem
    · exact absurd (List.mem_singleton.mp hmem).symm (hne index begin_ data)
  · refine List.pairwise_append.mpr ⟨hc.order, List.pairwise_singleton _ _, ?_⟩
    intro a _ b hb index begin_ data heq
    rw [List.mem_singleton.mp hb] at heq
    exact absurd heq (hne index begin_ data)

theorem Guarded.postIfSubscribed {c : Core} {h : Handler} (hc : Guarded c)
    (hh : isBlock h = false) : Guarded (c.postIfSubscribed h) := by
  unfold Core.postIfSubscribed
  split_ifs
  · exact hc
  · exact hc.post hh

theorem Guarded.disconnect {c : Core} (hc : Guarded c) : Guarded c.disconnect := by
  unfold Core.disconnect
  split_ifs
  · exact hc
  · exact (hc.post (h := .cancelOperation) rfl).congr rfl rfl

theorem Guarded.tail {c : Core} {h : Handler} {rest : List Handler} (hc : Guarded c)
    (hs : c.strand = h :: rest) : Guarded { c with strand := rest } := by
  have horder := hc.order
  rw [hs, List.pairwise_cons] at horder
  refine ⟨fun index begin_ data hmem => ?_, horder.2⟩
  exact hc.safe index begin_ data (hs ▸ List.mem_cons_of_mem h hmem)

theorem Guarded.attempt {cfg : Config} {m m' : Master} {c c' : Core} (hc : Guarded c)
    (h : Attempt cfg m c m' c') : Guarded c' := by
  cases h with
  | keeps => exact hc
  | chooses i hnone =>
    refine .of_no_block fun index begin_ data hmem => ?_
    obtain ⟨piece, hpiece, -⟩ := hc.safe index begin_ data hmem
    rw [hnone] at hpiece
    cases hpiece

/-! ### A handler runs -/

/-- A message leaves at most its own block to be stored. -/
theorem guarded_response {cfg : Config} {m m' : Master} {c c' : Core} {rejected : Message → Bool}
    {msg : Message} (hl : loopOf c.strand = [])
    (hmsg : ∀ index begin_ data, msg = .piece index begin_ data → Accepts cfg m index data →
      SafeAt index begin_ c ∧ .cancelPiece index ∉ c.strand)
    (h : Response cfg m c rejected msg m' c') : Guarded c' := by
  have hno : ∀ index begin_ data, .block index begin_ data ∉ c.strand := fun index begin_ data =>
    not_mem_of_loopOf hl rfl (by simp)
  have hc : Guarded c := .of_no_block hno
  cases h with
  | ignores => exact hc
  | choke =>
    refine Guarded.post ?_ rfl
    exact hc.congr rfl rfl
  | unchoke h =>
    refine Guarded.attempt ?_ h
    exact hc.congr rfl rfl
  | offer hmsg h => exact hc.attempt h
  | rejects => exact hc.disconnect
  | cancels index begin_ data => exact hc.post rfl
  | accepts index begin_ data ha =>
    obtain ⟨hsafe, hcancel⟩ := hmsg index begin_ data rfl ha
    refine ⟨fun index' begin' data' hmem => ?_, ?_⟩
    · rcases List.mem_append.mp hmem with hmem | hmem
      · exact absurd hmem (hno index' begin' data')
      · cases List.mem_singleton.mp hmem
        exact hsafe
    · refine List.pairwise_append.mpr ⟨hc.order, List.pairwise_singleton _ _, ?_⟩
      rintro a ha' b hb index' begin' data' rfl rfl
      cases List.mem_singleton.mp hb
      exact hcancel ha'

/-- **A handler keeps the queued blocks safe.** -/
theorem guarded_act {cfg : Config} {m m' : Master} {c c' : Core} {rejected : Message → Bool}
    {h : Handler} {rest : List Handler} (ho : InOrder c) (hc : Guarded c)
    (hs : c.strand = h :: rest)
    (hmsg : ∀ index begin_ data, h = .message (.piece index begin_ data) →
      Accepts cfg m index data → SafeAt index begin_ c ∧ .cancelPiece index ∉ rest)
    (hact : Act cfg m { c with strand := rest } rejected h m' c') : Guarded c' := by
  have ht := hc.tail hs
  cases hact with
  | read => exact ht.congr rfl rfl
  | keepAliveFrame => exact ht
  | message hres =>
    refine Guarded.postIfSubscribed ?_ rfl
    refine guarded_response (loopOf_rest_of_message ho hs).1 ?_ hres
    rintro index begin_ data rfl
    exact hmsg index begin_ data rfl
  | idle => exact ht
  | onChoked piece hpiece =>
    obtain ⟨hl | hl, -⟩ := loopOf_rest_of_choke_or_block ho hs (.inl rfl)
    · exact .of_loopOf hl (by simp)
    · exact .of_loopOf hl (by simp)
  | stores piece index begin_ data =>
    obtain ⟨hl | hl, -⟩ := loopOf_rest_of_choke_or_block ho hs (.inr ⟨index, begin_, data, rfl⟩)
    · exact .of_loopOf hl (by simp)
    · exact .of_loopOf hl (by simp)
  | completes piece index begin_ data =>
    have happ := loopOf_append rest (h := .clearAndTry) rfl
    obtain ⟨hl | hl, -⟩ := loopOf_rest_of_choke_or_block ho hs (.inr ⟨index, begin_, data, rfl⟩)
    · rw [hl] at happ
      exact .of_loopOf happ (by simp)
    · rw [hl] at happ
      exact .of_loopOf happ (by simp)
  | clearAndTry hatt =>
    rcases loopOf_rest_of_clearAndTry ho hs with hl | ⟨msg, hl, -⟩
    · exact Guarded.attempt (.of_loopOf hl (by simp)) hatt
    · exact Guarded.attempt (.of_loopOf hl (by simp)) hatt
  | timeoutFired => exact ht.post rfl
  | pieceTimeout piece hpiece =>
    split_ifs
    · exact ht.postIfSubscribed rfl
    · exact (ht.postIfSubscribed rfl).post rfl
  | cancelPiece piece hpiece =>
    refine .of_no_block fun index begin_ data hmem => ?_
    have hsafe := ht.safe index begin_ data hmem
    obtain ⟨piece', hpiece', rfl, -⟩ := hsafe
    have horder := hc.order
    rw [hs, List.pairwise_cons] at horder
    cases hpiece.symm.trans hpiece'
    exact horder.1 _ hmem piece.index begin_ data rfl rfl
  | notActive => exact ht
  | tryToRequest hatt => exact ht.attempt hatt
  | cancelIfActive piece hpiece => exact ht.post rfl
  | keepAlive hatt => exact ht.attempt hatt
  | disconnect => exact ht.disconnect
  | cancelOperation => exact ht.congr rfl rfl

/-! ### Steps and runs -/

theorem guarded_queued {c c' : Core} (hc : Guarded c) (h : Queued c c') : Guarded c' := by
  cases h with
  | message msg hread =>
    refine Guarded.post ?_ rfl
    exact hc.congr rfl rfl
  | timeout => exact hc.post rfl
  | keepAlive => exact hc.post rfl
  | disconnect => exact hc.post rfl

theorem guarded_told {cfg : Config} {c c' : Core} (hc : Guarded c) (h : Told cfg c c') :
    Guarded c' := by
  cases h with
  | nothing => exact hc
  | tryToRequest => exact hc.post rfl
  | cancelIfActive i => exact hc.post rfl

theorem guarded_step {cfg : Config} {s s' : State n} {e : Event n}
    (ho : ∀ p, InOrder (coreOf s p)) (hs : ∀ p, Guarded (coreOf s p)) (hc : Answers cfg s e)
    (h : step cfg s e = some s') : ∀ p, Guarded (coreOf s' p) := by
  refine clients_step Guarded hs (fun _ _ => guarded_queued) (fun _ _ => guarded_told) ?_ h
  rintro p r hd rest rfl hstrand hact
  refine guarded_act (ho p) (hs p) hstrand ?_ hact
  rintro index begin_ data rfl ha
  obtain ⟨hsafe, hcancel⟩ := hc index begin_ data rest hstrand ha
  exact ⟨blockSafe_iff.mp hsafe, hcancel⟩

/-- **Every block can be stored.** In a run in which accepted piece messages answer the active piece
of their client, whenever a handler posted by `OnPieceBlock` comes first on a strand, its client has
the piece of the message active and the piece has the slot of the block. -/
theorem blockSafe_run {cfg : Config} {disk : Disk} {es : List (Event n)} {s : State n}
    (hc : Along (step cfg) (Answers cfg) (init n cfg disk) es)
    (h : run (step cfg) (init n cfg disk) es = some s) (p : Fin n) {index begin_ : ℕ}
    {data : List UInt8} {rest : List Handler}
    (hs : (s.clients p).strand = .block index begin_ data :: rest) :
    BlockSafe index begin_ (s.clients p) := by
  have hinv : ∀ p, InOrder (coreOf s p) ∧ Guarded (coreOf s p) := by
    refine invariant_of_run (fun s => ∀ p, InOrder (coreOf s p) ∧ Guarded (coreOf s p))
      (Answers cfg) (fun s e s' hi he hst p => ?_) (fun p => ?_) hc h
    · exact ⟨inOrder_step (fun p => (hi p).1) hst p,
        guarded_step (fun p => (hi p).1) (fun p => (hi p).2) he hst p⟩
    · refine ⟨inOrder_init cfg disk p, .of_no_block fun index begin_ data hmem => ?_⟩
      simp [coreOf, init, access, core] at hmem
  refine blockSafe_iff.mpr ((hinv p).2.safe index begin_ data ?_)
  have hmem : .block index begin_ data ∈ (s.clients p).strand := by
    rw [hs]
    exact List.mem_cons_self
  exact hmem

/-- The events up to the first answer of a peer that has both pieces. -/
def untilAnswer (begin_ : ℕ) (data : List UInt8) : List (Event 1) :=
  [.run 0 0, .arrive 0 (.bitfield [192]), .run 0 0, .run 0 0, .arrive 0 .unchoke, .run 0 0, .run 0 0,
    .arrive 0 (.piece 0 begin_ data), .run 0 0]

/-- A peer chooses piece 0 and answers with its only block. -/
theorem blockSafe_run_answer :
    ∃ s, run (step threeBytes) (init 1 threeBytes threeBytesDisk) (untilAnswer 0 [1, 2]) = some s ∧
      (s.clients 0).strand = [.block 0 0 [1, 2], .read] ∧ BlockSafe 0 0 (s.clients 0) := by
  have hrun : run (step threeBytes) (init 1 threeBytes threeBytesDisk) (untilAnswer 0 [1, 2]) =
    some _ := rfl
  refine ⟨_, rfl, rfl, blockSafe_run ?_ hrun 0 rfl⟩
  refine along_cons rfl (fun _ _ _ _ h => nomatch h) <| along_cons rfl trivial <|
    along_cons rfl (fun _ _ _ _ h => nomatch h) <| along_cons rfl (fun _ _ _ _ h => nomatch h) <|
    along_cons rfl trivial <| along_cons rfl (fun _ _ _ _ h => nomatch h) <|
    along_cons rfl (fun _ _ _ _ h => nomatch h) <| along_cons rfl trivial <|
    along_cons rfl (fun _ _ _ _ h _ => ?_) trivial
  cases h
  exact ⟨⟨_, _, rfl, rfl, by decide⟩, by decide⟩

/-- The same peer answers with a block that begins at 16384: the piece has one slot, and the handler
is about to write to the second. -/
theorem not_blockSafe_begin :
    ∃ s, run (step threeBytes) (init 1 threeBytes threeBytesDisk) (untilAnswer 16384 [1]) = some s ∧
      (s.clients 0).strand = [.block 0 16384 [1], .read] ∧ ¬ BlockSafe 0 16384 (s.clients 0) := by
  refine ⟨_, rfl, rfl, ?_⟩
  rintro ⟨piece, offset, hact, -, hslot⟩
  cases hact
  exact absurd hslot (by decide)

end CppTorrent.Swarm.BlockSafety
