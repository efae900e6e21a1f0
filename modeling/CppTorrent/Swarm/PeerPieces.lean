import CppTorrent.Swarm.Calls

/-! # The bitfield of a remote peer

Only a `have` and a `bitfield` message set bits, and they set bits of pieces only: whatever a handler
does, a bitfield in which only pieces are set stays one (`pieces_execute`). -/

namespace CppTorrent.Swarm.PeerPieces

open CppTorrent.Files.Blocks CppTorrent.Swarm.Model CppTorrent.Swarm.Steps CppTorrent.Swarm.Calls

theorem pieces_send (msg : Message) (c : Client) : (c.send msg).pieces = c.pieces := by
  unfold Client.send
  split_ifs <;> rfl

theorem pieces_requestLoop (index : ℕ) : ∀ (reqCount pieceSize begin_ : ℕ) (c : Client),
    (requestLoop index reqCount pieceSize begin_ c).1.pieces = c.pieces := by
  intro reqCount
  induction reqCount with
  | zero =>
    intro pieceSize begin_ c
    rfl
  | succ reqCount ih =>
    intro pieceSize begin_ c
    rw [requestLoop]
    split_ifs
    · rw [ih]
      exact pieces_send _ _
    · rfl

theorem pieces_requestBlocks (pieceSize : ℕ) (piece : Piece) (begin_ : ℕ) (c : Client) :
    (requestBlocks pieceSize piece begin_ c).pieces = c.pieces := by
  have hloop := pieces_requestLoop piece.index requestMaxQueueSize pieceSize begin_ c
  unfold requestBlocks
  generalize requestLoop piece.index requestMaxQueueSize pieceSize begin_ c = res at hloop ⊢
  obtain ⟨c', rest, begin', more⟩ := res
  dsimp only
  split_ifs
  · exact (pieces_send _ _).trans hloop
  · exact hloop

theorem pieces_tryToRequestPiece (cfg : Config) (r : ℕ) (m : Master) (c : Client) :
    (tryToRequestPiece cfg r m c).2.pieces = c.pieces := by
  cases hat : atChoice cfg m c with
  | some c' =>
    rw [tryToRequestPiece_of_atChoice hat]
    obtain ⟨-, -, -, rfl⟩ := atChoice_spec hat
    have hint : (if c.amInterested then c else sendInterested c).pieces = c.pieces := by
      split_ifs
      · rfl
      · exact pieces_send _ _
    generalize choosePiece cfg r m (if c.amInterested then c else sendInterested c) = chosen
    obtain ⟨found, m'⟩ := chosen
    cases found with
    | none => exact hint
    | some i => exact (pieces_requestBlocks _ _ _ _).trans hint
  | none =>
    unfold tryToRequestPiece
    cases hact : c.activePiece with
    | some active =>
      dsimp only
      split_ifs
      · rfl
      · exact pieces_requestBlocks _ _ _ _
    | none =>
      dsimp only
      by_cases hcard : m.bitfield.card = cfg.total
      · rw [if_pos hcard]
        exact pieces_send _ _
      · rw [if_neg hcard]
        by_cases hchoke : c.peerChoking = true
        · rw [if_pos hchoke]
        · rw [atChoice, hact, if_neg (by simp [hcard, hchoke])] at hat
          cases hat

theorem pieces_disconnect (c : Client) : (disconnect c).pieces = c.pieces := by
  unfold disconnect
  split_ifs <;> rfl

theorem pieces_postIfSubscribed (h : Handler) (c : Client) :
    (c.postIfSubscribed h).pieces = c.pieces := by
  unfold Client.postIfSubscribed
  split_ifs <;> rfl

theorem pieces_cancelLoop (id : ℕ) : ∀ (fuel length begin_ : ℕ) (c : Client),
    (cancelLoop id fuel length begin_ c).pieces = c.pieces := by
  intro fuel
  induction fuel with
  | zero =>
    intro length begin_ c
    exact pieces_send _ _
  | succ fuel ih =>
    intro length begin_ c
    rw [cancelLoop]
    split_ifs
    · rw [ih]
      exact pieces_send _ _
    · exact pieces_send _ _

/-- A message sets bits of pieces only. -/
theorem pieces_handleResponse (cfg : Config) (r : ℕ) (m : Master) (c : Client) (msg : Message)
    (hc : c.pieces ⊆ Finset.range cfg.total) :
    (handleResponse cfg r m c msg).2.pieces ⊆ Finset.range cfg.total := by
  cases msg with
  | unchoke =>
    dsimp only [handleResponse]
    rw [pieces_tryToRequestPiece]
    exact hc
  | interested =>
    dsimp only [handleResponse]
    have hunchoke : (if c.amChoking = true ∧ ¬c.isDisconnected = true then
        sendUnchoke { c with peerInterested := true } else { c with peerInterested := true }).pieces =
          c.pieces := by
      split_ifs
      · exact pieces_send _ _
      · rfl
    split_ifs at hunchoke ⊢
    all_goals first
      | (rw [hunchoke]; exact hc)
      | (rw [pieces_tryToRequestPiece, hunchoke]; exact hc)
  | notInterested =>
    dsimp only [handleResponse]
    split_ifs
    · exact (pieces_send _ _).trans_subset hc
    · exact hc
  | have_ i =>
    dsimp only [handleResponse]
    by_cases htotal : cfg.total ≤ i
    · rw [if_pos htotal]
      exact hc
    · have hinsert : insert i c.pieces ⊆ Finset.range cfg.total :=
        Finset.insert_subset (Finset.mem_range.mpr (by omega)) hc
      rw [if_neg htotal]
      split_ifs
      · exact hinsert
      · rw [pieces_tryToRequestPiece]
        exact hinsert
  | bitfield payload =>
    dsimp only [handleResponse]
    have hunion : c.pieces ∪ bitsOf cfg.total payload ⊆ Finset.range cfg.total :=
      Finset.union_subset hc (Finset.filter_subset _ _)
    split_ifs
    · exact (pieces_disconnect c).trans_subset hc
    · rw [pieces_tryToRequestPiece]
      exact (pieces_send _ _).trans_subset hunion
    · rw [pieces_tryToRequestPiece]
      exact hunion
  | request index begin_ length =>
    dsimp only [handleResponse]
    split_ifs
    · exact (pieces_disconnect c).trans_subset hc
    · exact hc
  | piece index begin_ data =>
    dsimp only [handleResponse, onPieceBlock]
    split_ifs
    · exact (pieces_disconnect c).trans_subset hc
    · exact hc
    · exact hc
    · exact hc
    · exact hc
  | cancel index begin_ length =>
    dsimp only [handleResponse]
    split_ifs
    · exact (pieces_disconnect c).trans_subset hc
    · exact hc
  | invalid => exact (pieces_disconnect c).trans_subset hc
  | _ => exact hc

/-- **The bits of the remote peer are those of pieces.** -/
theorem pieces_execute {cfg : Config} {r : ℕ} {m m' : Master} {c c' : Client} {h : Handler}
    (hc : c.pieces ⊆ Finset.range cfg.total) (hex : execute cfg r m c h = some (m', c')) :
    c'.pieces ⊆ Finset.range cfg.total := by
  have htry : ∀ {c1 : Client}, some (tryToRequestPiece cfg r m c1) = some (m', c') →
      c1.pieces = c.pieces → c'.pieces ⊆ Finset.range cfg.total := by
    intro c1 heq hc1
    have hpieces := pieces_tryToRequestPiece cfg r m c1
    rw [Option.some.inj heq] at hpieces
    exact (hpieces.trans hc1).trans_subset hc
  cases h with
  | message msg =>
    have hres := Option.some.inj hex
    by_cases hk : msg = .keepAlive
    · subst hk
      cases hres
      exact hc
    · rw [onMessage_of_ne hk] at hres
      obtain ⟨-, rfl⟩ := Prod.mk.inj hres
      exact (pieces_postIfSubscribed .read _).trans_subset (pieces_handleResponse cfg r m c msg hc)
  | block index begin_ data =>
    dsimp only [execute, storeBlock] at hex
    cases hact : c.activePiece with
    | none => rw [hact] at hex; cases hex
    | some active =>
      rw [hact] at hex
      dsimp only at hex
      split_ifs at hex
      · cases hex; exact hc
      · exact htry hex rfl
      · cases hex; exact hc
  | onChoked =>
    dsimp only [execute] at hex
    cases hact : c.activePiece with
    | none => rw [hact] at hex; cases hex; exact hc
    | some active => rw [hact] at hex; cases hex; exact hc
  | clearAndTry => exact htry hex rfl
  | pieceTimeout =>
    dsimp only [execute] at hex
    cases hact : c.activePiece with
    | none => rw [hact] at hex; cases hex; exact hc
    | some active =>
      rw [hact] at hex
      dsimp only at hex
      split_ifs at hex
      · cases hex; exact (pieces_postIfSubscribed _ _).trans_subset hc
      · cases hex; exact (pieces_postIfSubscribed _ _).trans_subset hc
  | cancelPiece id =>
    dsimp only [execute] at hex
    split_ifs at hex
    · cases hex; exact (pieces_cancelLoop _ _ _ _ _).trans_subset hc
    · cases hex; exact hc
  | tryToRequest => exact htry hex rfl
  | cancelIfActive id =>
    dsimp only [execute] at hex
    split_ifs at hex
    · exact htry hex rfl
    · cases hex; exact hc
  | keepAlive =>
    dsimp only [execute] at hex
    split_ifs at hex
    · exact htry hex (pieces_send _ _)
    · cases hex; exact (pieces_send _ _).trans_subset hc
    · cases hex; exact hc
  | disconnect => cases hex; exact (pieces_disconnect c).trans_subset hc
  | read => cases hex; exact hc
  | timeoutFired => cases hex; exact hc
  | cancelOperation => cases hex; exact hc

end CppTorrent.Swarm.PeerPieces
