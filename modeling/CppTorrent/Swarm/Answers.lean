import CppTorrent.Swarm.Requests

/-! # The answers of a remote peer

Each answer is put into the slot of its block and counted, so after all of them the slots hold the
piece, cut into blocks (`blocks_assemble`), and the sort in the write job changes nothing. The answers
that have arrived and are not handled yet are queued on the strand of the client. -/

namespace CppTorrent.Swarm.Answers

open CppTorrent.Files.Blocks CppTorrent.Swarm.Steps
open CppTorrent.Swarm.Model hiding answers

/-- A block that the remote peer sends. -/
structure Answer where
  index : ℕ
  begin_ : ℕ
  data : List UInt8
  deriving DecidableEq

/-- The answers to requests for blocks of a content. -/
def answers (content : List UInt8) (requests : List (ℕ × ℕ × ℕ)) : List Answer :=
  requests.map fun (index, begin_, length) => ⟨index, begin_, (content.drop begin_).take length⟩

/-- The answer that carries a block of a piece. -/
def answerOf (index : ℕ) (block : Block) : Answer := ⟨index, block.begin_, block.data⟩

/-- The answers to the requests for a piece carry the blocks that it is cut into. -/
theorem answers_requests (i : ℕ) (content : List UInt8) :
    answers content ((List.range (blockCountOf content.length)).map fun k =>
      (i, k * mostRequestSize, min mostRequestSize (content.length - k * mostRequestSize))) =
    (cut content).map (answerOf i) := by
  unfold answers cut
  rw [List.map_map, List.map_map]
  refine List.map_congr_left fun k _ => ?_
  simp only [Function.comp_apply, answerOf, blockAt, Answer.mk.injEq, true_and]
  rw [List.take_eq_take_iff, List.length_drop]
  omega

/-- A piece into which answers have been put. -/
def assemble (piece : Piece) (handled : List Answer) : Piece :=
  handled.foldl (fun piece a => stored piece a.begin_ a.data) piece

theorem assemble_append (piece : Piece) (handled : List Answer) (a : Answer) :
    assemble piece (handled ++ [a]) = stored (assemble piece handled) a.begin_ a.data := by
  rw [assemble, List.foldl_append]
  rfl

/-- The answers are counted and do not change the shape of the piece. -/
theorem assemble_spec (piece : Piece) : ∀ handled : List Answer,
    (assemble piece handled).index = piece.index ∧
      (assemble piece handled).blockCount = piece.blockCount ∧
      (assemble piece handled).blocks.length = piece.blocks.length ∧
      (assemble piece handled).currentBlocksNum = piece.currentBlocksNum + handled.length := by
  intro handled
  induction handled generalizing piece with
  | nil => exact ⟨rfl, rfl, rfl, rfl⟩
  | cons a handled ih =>
    obtain ⟨h1, h2, h3, h4⟩ := ih (stored piece a.begin_ a.data)
    refine ⟨h1, h2, h3.trans (List.length_set ..), h4.trans ?_⟩
    rw [List.length_cons]
    change piece.currentBlocksNum + 1 + handled.length = _
    omega

/-- A slot holds its block once that has been put there. -/
theorem blocks_assemble_get {i : ℕ} {content : List UInt8} (k : ℕ) :
    ∀ (handled : List Answer) (piece : Piece),
    (∀ a ∈ handled, a ∈ (cut content).map (answerOf i)) →
    piece.blocks.length = (cut content).length →
    (piece.blocks[k]? = (cut content)[k]? ∨ ∃ a ∈ handled, a.begin_ / mostRequestSize = k) →
    (assemble piece handled).blocks[k]? = (cut content)[k]? := by
  intro handled
  induction handled with
  | nil =>
    intro piece _ _ hk
    rcases hk with hk | ⟨a, ha, -⟩
    · exact hk
    · simp at ha
  | cons a handled ih =>
    intro piece hall hlen hk
    obtain ⟨block, hblock, rfl⟩ := List.mem_map.mp (hall a (by simp))
    obtain ⟨j, hj, rfl⟩ := List.mem_map.mp hblock
    have hslot : (blockAt content j).begin_ / mostRequestSize = j := by
      change j * mostRequestSize / mostRequestSize = j
      exact Nat.mul_div_cancel j (by decide)
    have hset : (stored piece (blockAt content j).begin_ (blockAt content j).data).blocks =
        piece.blocks.set j (blockAt content j) := by
      unfold stored
      rw [hslot]
    have hcut : (cut content)[j]? = some (blockAt content j) := by
      have hlt := List.mem_range.mp hj
      rw [cut, List.getElem?_map, List.getElem?_range hlt, Option.map_some]
    refine ih (stored piece (blockAt content j).begin_ (blockAt content j).data)
      (fun b hb => hall b (by simp [hb])) (by rw [hset, List.length_set, hlen]) ?_
    rw [hset]
    by_cases hkj : j = k
    · subst hkj
      left
      have hlt : j < piece.blocks.length := by
        rw [hlen]
        exact (List.getElem?_eq_some_iff.mp hcut).1
      rw [List.getElem?_set_self hlt, hcut]
    · rcases hk with hk | ⟨b, hb, hbk⟩
      · left
        rw [List.getElem?_set_ne hkj]
        exact hk
      · rcases List.mem_cons.mp hb with rfl | hb
        · exact absurd (hslot.symm.trans hbk) hkj
        · exact Or.inr ⟨b, hb, hbk⟩

/-- **After all answers, in any order, the slots hold the piece.** -/
theorem blocks_assemble {i : ℕ} {content : List UInt8} {handled : List Answer}
    (hperm : handled.Perm ((cut content).map (answerOf i))) :
    (assemble (newPiece i (blockCountOf content.length)) handled).blocks = cut content := by
  have hlen : (cut content).length = blockCountOf content.length := by
    rw [cut, List.length_map, List.length_range]
    rfl
  have hnew : (newPiece i (blockCountOf content.length)).blocks.length = (cut content).length := by
    rw [hlen]
    exact List.length_replicate
  refine List.ext_getElem? fun k => ?_
  rcases Nat.lt_or_ge k (cut content).length with hk | hk
  · refine blocks_assemble_get k handled _ (fun a ha => hperm.mem_iff.mp ha) hnew (Or.inr ?_)
    refine ⟨answerOf i (blockAt content k), ?_, ?_⟩
    · refine hperm.mem_iff.mpr (List.mem_map_of_mem (List.mem_map_of_mem (List.mem_range.mpr ?_)))
      rw [hlen] at hk
      exact hk
    · change k * mostRequestSize / mostRequestSize = k
      exact Nat.mul_div_cancel k (by decide)
  · have hshape := (assemble_spec (newPiece i (blockCountOf content.length)) handled).2.2.1
    rw [List.getElem?_eq_none (by omega), List.getElem?_eq_none hk]

/-- **The sort in the write job changes nothing.** -/
theorem eq_cut_of_sorts {content : List UInt8} {sorted : List Block}
    (h : sorts (cut content) sorted = true) : sorted = cut content := by
  unfold sorts at h
  rw [Bool.and_eq_true, decide_eq_true_eq, decide_eq_true_eq] at h
  obtain ⟨hperm, hsorted⟩ := h
  have hbegins : ∀ bs : List Block, (∀ b ∈ bs, b ∈ cut content) →
      bs = (bs.map Block.begin_).map fun b => blockAt content (b / mostRequestSize) := by
    intro bs hbs
    rw [List.map_map]
    refine (List.map_id bs).symm.trans (List.map_congr_left fun b hb => ?_)
    obtain ⟨k, -, rfl⟩ := List.mem_map.mp (hbs b hb)
    change blockAt content k = blockAt content (k * mostRequestSize / mostRequestSize)
    rw [Nat.mul_div_cancel k (by decide)]
  have hcut : ((cut content).map Block.begin_).Pairwise (· ≤ ·) := by
    rw [cut, List.map_map, List.pairwise_map]
    refine List.pairwise_lt_range.imp fun {a b} hab => ?_
    exact Nat.mul_le_mul_right mostRequestSize hab.le
  have heq : sorted.map Block.begin_ = (cut content).map Block.begin_ :=
    (hperm.map Block.begin_).eq_of_pairwise (fun _ _ _ _ => Nat.le_antisymm)
      (List.pairwise_map.mpr hsorted) hcut
  rw [hbegins sorted fun b hb => hperm.mem_iff.mp hb, heq, ← hbegins _ fun b hb => hb]

/-! ### The strand of the client -/

/-- The answer that a queued handler carries. -/
def queuedAnswer : Handler → Option Answer
  | .message (.piece index begin_ data) => some ⟨index, begin_, data⟩
  | .block index begin_ data => some ⟨index, begin_, data⟩
  | _ => none

/-- The answers queued on a strand. -/
def queuedAnswers (strand : List Handler) : List Answer := strand.filterMap queuedAnswer

/-- The handlers that take the active piece `i` away: a choke, the timeout of the piece and its
cancels. -/
def disturbs (i : ℕ) : Handler → Bool
  | .onChoked | .pieceTimeout => true
  | .cancelPiece j | .cancelIfActive j => j = i
  | _ => false

/-- No answers and no `ClearAndTryRequest` are queued between two states of a client. -/
def Quiet (c c' : Core) : Prop :=
  ∃ posted, c'.strand = c.strand ++ posted ∧ queuedAnswers posted = [] ∧ .clearAndTry ∉ posted

theorem Quiet.of_strand {c c' : Core} (h : c'.strand = c.strand) : Quiet c c' :=
  ⟨[], by rw [h, List.append_nil], rfl, List.not_mem_nil⟩

theorem Quiet.post {c c' : Core} {h : Handler} (hquiet : Quiet c c') (hanswer : queuedAnswer h = none)
    (hclear : h ≠ .clearAndTry) : Quiet c (c'.post h) := by
  obtain ⟨posted, hstrand, hnone, hnot⟩ := hquiet
  refine ⟨posted ++ [h], ?_, ?_, ?_⟩
  · change c'.strand ++ [h] = _
    rw [hstrand, List.append_assoc]
  · unfold queuedAnswers at hnone ⊢
    rw [List.filterMap_append, hnone, List.filterMap_cons_none hanswer]
    rfl
  · rw [List.mem_append, List.mem_singleton]
    rintro (hmem | heq)
    · exact hnot hmem
    · exact hclear heq.symm

theorem Quiet.postIfSubscribed {c c' : Core} {h : Handler} (hquiet : Quiet c c')
    (hanswer : queuedAnswer h = none) (hclear : h ≠ .clearAndTry) :
    Quiet c (c'.postIfSubscribed h) := by
  unfold Core.postIfSubscribed
  split_ifs
  · exact hquiet
  · exact hquiet.post hanswer hclear

theorem Quiet.disconnect (c : Core) : Quiet c c.disconnect := by
  unfold Core.disconnect
  split_ifs
  · exact .of_strand rfl
  · exact (Quiet.of_strand (c := c) rfl).post (h := .cancelOperation) rfl nofun

theorem quiet_attempt {cfg : Config} {m m' : Master} {c c' : Core} (h : Attempt cfg m c m' c') :
    Quiet c c' := by
  cases h with
  | keeps => exact .of_strand rfl
  | chooses => exact .of_strand rfl

/-- A message that is not an answer keeps the active piece. -/
theorem quiet_response {cfg : Config} {m m' : Master} {c c' : Core} {rejected : Message → Bool}
    {msg : Message} (hmsg : queuedAnswer (.message msg) = none)
    (h : Response cfg m c rejected msg m' c') :
    Quiet c c' ∧ ∀ piece, c.piece = some piece → c'.piece = some piece := by
  cases h with
  | ignores => exact ⟨.of_strand rfl, fun _ hp => hp⟩
  | choke => exact ⟨(Quiet.of_strand rfl).post rfl nofun, fun _ hp => hp⟩
  | unchoke hatt =>
    have hquiet := quiet_attempt hatt
    refine ⟨hquiet, fun piece hp => ?_⟩
    rw [(attempt_of_piece (c := { c with peerChoking := false }) hp hatt).2]
    exact hp
  | offer _ hatt =>
    refine ⟨quiet_attempt hatt, fun piece hp => ?_⟩
    rw [(attempt_of_piece hp hatt).2]
    exact hp
  | rejects => exact ⟨.disconnect c, fun _ hp => (piece_disconnect c).trans hp⟩
  | cancels => cases hmsg
  | accepts => cases hmsg

/-- **A handler that carries no answer** queues none and no write job; it keeps the active piece unless
it takes it away. -/
theorem quiet_act {cfg : Config} {m m' : Master} {c c' : Core} {rejected : Message → Bool}
    {h : Handler} (hanswer : queuedAnswer h = none) (hact : Act cfg m c rejected h m' c') :
    m'.jobs = m.jobs ∧ Quiet c c' ∧ (h ≠ .clearAndTry → ∀ piece, c.piece = some piece →
      disturbs piece.index h = false → c'.piece = some piece) := by
  have hjobs : m'.jobs = m.jobs := by
    rcases (act_master hact).2.2 with hjobs | ⟨index, begin_, data, piece, rfl, -⟩
    · exact hjobs
    · cases hanswer
  refine ⟨hjobs, ?_⟩
  cases hact with
  | read => exact ⟨.of_strand rfl, fun _ _ hp _ => hp⟩
  | keepAliveFrame => exact ⟨.of_strand rfl, fun _ _ hp _ => hp⟩
  | message hres =>
    obtain ⟨hquiet, hkeep⟩ := quiet_response hanswer hres
    refine ⟨hquiet.postIfSubscribed rfl nofun, fun _ piece hp _ => ?_⟩
    rw [piece_postIfSubscribed]
    exact hkeep piece hp
  | idle hnone => exact ⟨.of_strand rfl, fun _ _ hp _ => hp⟩
  | onChoked => exact ⟨.of_strand rfl, fun _ _ _ hd => by cases hd⟩
  | stores => cases hanswer
  | completes => cases hanswer
  | clearAndTry hatt =>
    have hquiet := quiet_attempt hatt
    exact ⟨hquiet, fun hne => absurd rfl hne⟩
  | timeoutFired => exact ⟨(Quiet.of_strand rfl).post rfl nofun, fun _ _ hp _ => hp⟩
  | pieceTimeout =>
    have hquiet : Quiet c (c.postIfSubscribed .tryToRequest) :=
      (Quiet.of_strand rfl).postIfSubscribed rfl nofun
    refine ⟨?_, fun _ _ _ hd => by cases hd⟩
    split_ifs
    · exact hquiet
    · exact hquiet.post rfl nofun
  | cancelPiece piece hpiece =>
    refine ⟨.of_strand rfl, fun _ piece' hp hd => ?_⟩
    obtain rfl : piece = piece' := Option.some.inj (hpiece.symm.trans hp)
    simp [disturbs] at hd
  | notActive => exact ⟨.of_strand rfl, fun _ _ hp _ => hp⟩
  | tryToRequest hatt =>
    refine ⟨quiet_attempt hatt, fun _ piece hp _ => ?_⟩
    rw [(attempt_of_piece hp hatt).2]
    exact hp
  | cancelIfActive => exact ⟨(Quiet.of_strand rfl).post rfl nofun, fun _ _ hp _ => hp⟩
  | keepAlive hatt =>
    refine ⟨quiet_attempt hatt, fun _ piece hp _ => ?_⟩
    rw [(attempt_of_piece hp hatt).2]
    exact hp
  | disconnect => exact ⟨.disconnect c, fun _ _ hp _ => (piece_disconnect c).trans hp⟩
  | cancelOperation => exact ⟨.of_strand rfl, fun _ _ hp _ => hp⟩

theorem queuedAnswers_append (hs hs' : List Handler) :
    queuedAnswers (hs ++ hs') = queuedAnswers hs ++ queuedAnswers hs' := List.filterMap_append

theorem Quiet.queuedAnswers {c c' : Core} (h : Quiet c c') :
    queuedAnswers c'.strand = queuedAnswers c.strand := by
  obtain ⟨posted, hstrand, hnone, -⟩ := h
  rw [hstrand, queuedAnswers_append, hnone, List.append_nil]

end CppTorrent.Swarm.Answers
