import CppTorrent.Swarm.Advance
import CppTorrent.Swarm.InterleavedOrder

/-! # The mark of a client

Under the default strategy a piece is marked in `requested_pieces_` when a client chooses it. `held`
says which mark a client owns: that of its active piece, unless `ClearAndTryRequest` or a cancel of the
piece is queued. `Tidy` is what the strand of a client says about its mark. `OnPieceBlock` posts a cancel
of a piece that is done, whatever the active piece is; any other cancel that is queued is of the active
piece, and the only one of it.

Where a handler is interrupted after it has given the mark away, the client is taken as it will be at
the end of that handler (`ahead`). Between two accesses to the master peer the mark of a client changes
in one of the ways of `Change`. -/

namespace CppTorrent.Swarm.Marks

open CppTorrent.Files.Blocks CppTorrent.Swarm.Model CppTorrent.Swarm.Steps CppTorrent.Swarm.Calls
open CppTorrent.Swarm.Interleaving CppTorrent.Swarm.Holding CppTorrent.Swarm.ReadOrder

/-- The handlers that say nothing about the mark of a client. -/
def isNeutral : Handler → Bool
  | .clearAndTry | .cancelPiece _ | .cancelIfActive _ => false
  | _ => true

/-- The active piece is not the client's own any more. -/
def Given (strand : List Handler) (piece : Piece) : Prop :=
  .clearAndTry ∈ strand ∨ .cancelPiece piece.index ∈ strand

instance (strand : List Handler) (piece : Piece) : Decidable (Given strand piece) :=
  inferInstanceAs (Decidable (_ ∨ _))

/-- The piece whose mark a client owns. -/
def held (c : Core) : Option ℕ :=
  c.piece.bind fun piece => if Given c.strand piece then none else some piece.index

theorem held_of_none {c : Core} (h : c.piece = none) : held c = none := by
  rw [held, h]
  rfl

theorem held_of_given {c : Core} {piece : Piece} (h : c.piece = some piece)
    (hg : Given c.strand piece) : held c = none := by
  rw [held, h, Option.bind_some, if_pos hg]

theorem held_of_not_given {c : Core} {piece : Piece} (h : c.piece = some piece)
    (hg : ¬ Given c.strand piece) : held c = some piece.index := by
  rw [held, h, Option.bind_some, if_neg hg]

theorem held_of_given_congr {c c' : Core} (hp : c'.piece = c.piece)
    (hg : ∀ piece, c.piece = some piece → (Given c'.strand piece ↔ Given c.strand piece)) :
    held c' = held c := by
  cases hpiece : c.piece with
  | none => rw [held_of_none hpiece, held_of_none (hp.trans hpiece)]
  | some piece =>
    rw [held, held, hp, hpiece]
    simp only [Option.bind_some, hg piece hpiece]

theorem held_congr {c c' : Core} (hp : c'.piece = c.piece)
    (hs : ∀ h, isNeutral h = false → (h ∈ c'.strand ↔ h ∈ c.strand)) : held c' = held c :=
  held_of_given_congr hp fun _ _ => or_congr (hs _ rfl) (hs _ rfl)

theorem mem_insert_of_neutral {a b : List Handler} {h hd : Handler} (hd' : isNeutral hd = true)
    (hh : isNeutral h = false) : h ∈ a ++ hd :: b ↔ h ∈ a ++ b := by
  have hne : h ≠ hd := by
    rintro rfl
    rw [hd'] at hh
    cases hh
  simp [hne]

theorem mem_cons_of_neutral {strand : List Handler} {h hd : Handler} (hd' : isNeutral hd = true)
    (hh : isNeutral h = false) : h ∈ hd :: strand ↔ h ∈ strand :=
  mem_insert_of_neutral (a := []) hd' hh

theorem held_insert {c : Core} {a b : List Handler} {h : Handler} (hs : c.strand = a ++ b)
    (hh : isNeutral h = true) : held { c with strand := a ++ h :: b } = held c :=
  held_congr rfl fun _ hd => by rw [hs, mem_insert_of_neutral hh hd]

theorem held_tail {c : Core} {h : Handler} {rest : List Handler} (hs : c.strand = h :: rest)
    (hh : isNeutral h = true) : held { c with strand := rest } = held c :=
  held_congr rfl fun _ hd => by rw [hs, mem_cons_of_neutral hh hd]

/-! ### What the strand says about the mark -/

/-- A timer has fired before the operations of the client were cancelled. -/
def Fired (strand : List Handler) : Prop := [.timeoutFired, .cancelOperation].Sublist strand

theorem Fired.tail {h : Handler} {rest : List Handler} (hf : Fired (h :: rest))
    (hh : h ≠ .timeoutFired) : Fired rest := by
  rcases List.sublist_cons_iff.mp hf with hf | ⟨r, heq, -⟩
  · exact hf
  · exact absurd (List.cons.inj heq).1.symm hh

theorem fired_of_mem {strand : List Handler} (h : .timeoutFired ∈ strand) :
    Fired (strand ++ [.cancelOperation]) :=
  (List.singleton_sublist.mpr h).append (List.Sublist.refl _)

/-- A client gives its mark back, if it has one. -/
def Returns (c : Core) : Prop :=
  held c = none ∨ .onChoked ∈ c.strand ∨ .pieceTimeout ∈ c.strand ∨ Fired c.strand

/-- The handlers on a strand agree with the active piece: one that clears it finds it, and one that
cancels a piece finds it as well or the piece is done. A piece that is not done is cancelled once, and
the active one not behind a choke alone. A client that is disconnected owns no mark, or gives it back. -/
structure Tidy (bits : Finset ℕ) (c : Core) : Prop where
  clearing : .clearAndTry ∈ c.strand →
    ∃ piece, c.piece = some piece ∧ .cancelPiece piece.index ∉ c.strand
  cancelling : ∀ i, .cancelPiece i ∈ c.strand → i ∈ bits ∨ activeIndex c = some i
  once : ∀ i ∉ bits, c.strand.count (.cancelPiece i) ≤ 1
  choked : ∀ i, activeIndex c = some i → .onChoked ∈ c.strand → .cancelPiece i ∈ c.strand →
    [.cancelPiece i, .onChoked].Sublist c.strand
  notTold : ∀ i, .cancelIfActive i ∉ c.strand
  gone : c.isDisconnected = true → Returns c

/-- More pieces are done. -/
theorem Tidy.mono {bits bits' : Finset ℕ} {c : Core} (hc : Tidy bits c) (h : bits ⊆ bits') :
    Tidy bits' c where
  clearing := hc.clearing
  cancelling i hmem := (hc.cancelling i hmem).imp_left (@h i)
  once i hi := hc.once i fun hmem => hi (h hmem)
  choked := hc.choked
  notTold := hc.notTold
  gone := hc.gone

theorem Tidy.congr {bits : Finset ℕ} {c c' : Core} (hc : Tidy bits c) (hp : c'.piece = c.piece)
    (hs : c'.strand = c.strand) (hd : c'.isDisconnected = c.isDisconnected) : Tidy bits c' := by
  obtain ⟨d', ch', pc', r', s'⟩ := c'
  obtain ⟨d, ch, pc, r, s⟩ := c
  cases hp
  cases hs
  cases hd
  exact ⟨hc.clearing, hc.cancelling, hc.once, hc.choked, hc.notTold, hc.gone⟩

/-- A client without an active piece has nothing to clear, and only pieces to cancel that are done. -/
theorem Tidy.of_none {bits : Finset ℕ} {c : Core} (hp : c.piece = none)
    (hclear : .clearAndTry ∉ c.strand) (hcancel : ∀ i, .cancelPiece i ∈ c.strand → i ∈ bits)
    (htold : ∀ i, .cancelIfActive i ∉ c.strand) : Tidy bits c where
  clearing h := absurd h hclear
  cancelling i h := .inl (hcancel i h)
  once i hi := by
    rw [List.count_eq_zero_of_not_mem fun hmem => hi (hcancel i hmem)]
    exact Nat.zero_le 1
  choked i hi := by
    rw [activeIndex, hp] at hi
    cases hi
  notTold := htold
  gone _ := .inl (held_of_none hp)

/-- Without an active piece nothing is queued that clears it. -/
theorem Tidy.clearAndTry_not_mem {bits : Finset ℕ} {c : Core} (hc : Tidy bits c)
    (hp : c.piece = none) : .clearAndTry ∉ c.strand := by
  intro hmem
  obtain ⟨piece, hpiece, -⟩ := hc.clearing hmem
  rw [hp] at hpiece
  cases hpiece

theorem Tidy.mem_bits_of_none {bits : Finset ℕ} {c : Core} (hc : Tidy bits c) (hp : c.piece = none)
    {i : ℕ} (hmem : .cancelPiece i ∈ c.strand) : i ∈ bits := by
  refine (hc.cancelling i hmem).resolve_right fun hactive => ?_
  rw [activeIndex, hp] at hactive
  cases hactive

/-! ### A handler that says nothing about the mark is queued -/

theorem Returns.insert {c : Core} {a b : List Handler} {h : Handler} (hc : Returns c)
    (hs : c.strand = a ++ b) (hh : isNeutral h = true) :
    Returns { c with strand := a ++ h :: b } := by
  have hsub : (a ++ b).Sublist (a ++ h :: b) := (List.Sublist.refl a).append (List.sublist_cons_self h b)
  rcases hc with hc | hc | hc | hc
  · exact .inl ((held_insert hs hh).trans hc)
  · exact .inr (.inl (hsub.subset (hs ▸ hc)))
  · exact .inr (.inr (.inl (hsub.subset (hs ▸ hc))))
  · exact .inr (.inr (.inr ((hs ▸ hc : Fired (a ++ b)).trans hsub)))

/-- Only a choke may not come before a cancel. -/
theorem Tidy.insert {bits : Finset ℕ} {c : Core} {a b : List Handler} {h : Handler}
    (hc : Tidy bits c) (hs : c.strand = a ++ b) (hh : isNeutral h = true)
    (hb : h = .onChoked → b = []) : Tidy bits { c with strand := a ++ h :: b } where
  clearing hmem := by
    rw [mem_insert_of_neutral hh rfl, ← hs] at hmem
    obtain ⟨piece, hpiece, hcancel⟩ := hc.clearing hmem
    refine ⟨piece, hpiece, ?_⟩
    rwa [mem_insert_of_neutral hh rfl, ← hs]
  cancelling i hmem := by
    rw [mem_insert_of_neutral hh rfl, ← hs] at hmem
    exact hc.cancelling i hmem
  once i hi := by
    have hne : h ≠ .cancelPiece i := by
      rintro rfl
      cases hh
    have honce := hc.once i hi
    rw [hs, List.count_append] at honce
    rwa [List.count_append, List.count_cons_of_ne hne]
  choked i hi hchoke hmem := by
    rw [mem_insert_of_neutral hh rfl] at hmem
    by_cases hold : .onChoked ∈ a ++ b
    · have hsub := hc.choked i hi (hs ▸ hold) (hs ▸ hmem)
      rw [hs] at hsub
      exact hsub.trans ((List.Sublist.refl a).append (List.sublist_cons_self h b))
    · have hlast : h = .onChoked := by
        by_contra hne
        exact hold (by simpa [Ne.symm hne] using hchoke)
      subst hlast
      rw [hb rfl, List.append_nil] at hmem
      rw [hb rfl]
      exact (List.singleton_sublist.mpr hmem).append (List.Sublist.refl _)
  notTold i := by
    rw [mem_insert_of_neutral hh rfl, ← hs]
    exact hc.notTold i
  gone hd := (hc.gone hd).insert hs hh

theorem Tidy.post {bits : Finset ℕ} {c : Core} {h : Handler} (hc : Tidy bits c)
    (hh : isNeutral h = true) : Tidy bits (c.post h) :=
  hc.insert (List.append_nil _).symm hh fun _ => rfl

theorem held_post {c : Core} {h : Handler} (hh : isNeutral h = true) : held (c.post h) = held c :=
  held_insert (List.append_nil _).symm hh

/-! ### A handler leaves the strand -/

/-- The handlers that give the piece back. -/
def isReturn : Handler → Bool
  | .onChoked | .pieceTimeout | .timeoutFired => true
  | _ => false

/-- A handler that does not give the piece back was not the one that does. -/
theorem Returns.tail {c : Core} {h : Handler} {rest : List Handler} (hc : Returns c)
    (hs : c.strand = h :: rest) (hheld : held { c with strand := rest } = held c)
    (hh : isReturn h = true → c.piece = none) : Returns { c with strand := rest } := by
  by_cases hreturn : isReturn h = true
  · exact .inl (held_of_none (hh hreturn))
  · have hne : ∀ {hd}, isReturn hd = true → hd ≠ h := fun h1 h2 => hreturn (h2 ▸ h1)
    unfold Returns at hc ⊢
    rw [hheld]
    rw [hs, List.mem_cons, List.mem_cons, or_iff_right (hne rfl), or_iff_right (hne rfl)] at hc
    rcases hc with hc | hc | hc | hc
    · exact .inl hc
    · exact .inr (.inl hc)
    · exact .inr (.inr (.inl hc))
    · exact .inr (.inr (.inr (hc.tail (hne rfl).symm)))

section
variable {bits : Finset ℕ} {c : Core} {h : Handler} {rest : List Handler}

theorem Tidy.count_rest (hc : Tidy bits c) (hs : c.strand = h :: rest) {i : ℕ} (hi : i ∉ bits) :
    rest.count (.cancelPiece i) ≤ 1 := by
  have honce := hc.once i hi
  rw [hs] at honce
  exact (List.count_le_count_cons ..).trans honce

theorem Tidy.tail_of_returns (hc : Tidy bits c) (hs : c.strand = h :: rest)
    (hfirst : ∀ i, activeIndex c = some i → h ≠ .cancelPiece i)
    (hgone : c.isDisconnected = true → Returns { c with strand := rest }) :
    Tidy bits { c with strand := rest } := by
  have hmem : ∀ {hd}, hd ∈ rest → hd ∈ c.strand := fun hm => hs ▸ List.mem_cons_of_mem h hm
  refine ⟨fun hm => ?_, fun i hm => hc.cancelling i (hmem hm), fun i hi => hc.count_rest hs hi,
    fun i hi hchoke hm => ?_, fun i hm => hc.notTold i (hmem hm), hgone⟩
  · obtain ⟨piece, hpiece, hcancel⟩ := hc.clearing (hmem hm)
    exact ⟨piece, hpiece, fun hm => hcancel (hmem hm)⟩
  · have hsub := hc.choked i hi (hmem hchoke) (hmem hm)
    rw [hs] at hsub
    rcases List.sublist_cons_iff.mp hsub with hsub | ⟨l, heq, -⟩
    · exact hsub
    · exact absurd (List.cons.inj heq).1.symm (hfirst i hi)

/-- A neutral handler leaves the strand. If it is one that gives the piece back, there is none. -/
theorem Tidy.tail (hc : Tidy bits c) (hs : c.strand = h :: rest) (hh : isNeutral h = true)
    (hgone : isReturn h = true → c.piece = none) : Tidy bits { c with strand := rest } := by
  refine hc.tail_of_returns hs ?_ fun hd => (hc.gone hd).tail hs (held_tail hs hh) hgone
  rintro i - rfl
  cases hh

/-- A handler that gives nothing back leaves the strand. -/
theorem Tidy.tail_of_not_return (hc : Tidy bits c) (hs : c.strand = h :: rest) (hh : isNeutral h = true)
    (hreturn : isReturn h = false) : Tidy bits { c with strand := rest } :=
  hc.tail hs hh fun hr => absurd (hreturn.symm.trans hr) Bool.false_ne_true

/-- The cancel of a piece that is not active leaves the strand. -/
theorem Tidy.tail_cancelPiece {i : ℕ} (hc : Tidy bits c) (hs : c.strand = .cancelPiece i :: rest)
    (hi : activeIndex c ≠ some i) :
    Tidy bits { c with strand := rest } ∧ held { c with strand := rest } = held c := by
  have hheld : held { c with strand := rest } = held c := by
    refine held_of_given_congr rfl fun piece hpiece => ?_
    have hne : piece.index ≠ i := fun heq => hi (by rw [activeIndex, hpiece, ← heq]; rfl)
    rw [hs]
    simp [Given, hne]
  refine ⟨hc.tail_of_returns hs ?_ fun hd => (hc.gone hd).tail hs hheld fun hr => ?_, hheld⟩
  · rintro j hj heq
    cases heq
    exact hi hj
  · cases hr

end

/-! ### Between two accesses -/

/-- The client as it will be at the end of a handler that has given the mark away. -/
def ahead (c : Core) : Point → Core
  | .dropping => { c with piece := none }
  | .telling =>
    match c.piece with
    | none => c
    | some piece => if c.peerChoking then c else c.post (.cancelPiece piece.index)
  | .completing => c.post .clearAndTry
  | _ => c

/-- What is queued behind an interrupted handler says nothing about the mark. -/
theorem tidy_ahead_posted {bits : Finset ℕ} {c c' : Core} {point : Point} {h : Handler}
    (hp : c'.piece = c.piece) (hchoke : c'.peerChoking = c.peerChoking)
    (hd : c'.isDisconnected = c.isDisconnected) (hs : c'.strand = c.strand ++ [h])
    (hc : Tidy bits (ahead c point)) (hh : isNeutral h = true) (hne : h ≠ .onChoked) :
    Tidy bits (ahead c' point) ∧ held (ahead c' point) = held (ahead c point) := by
  have hend : Tidy bits c → Tidy bits c' ∧ held c' = held c := fun hc =>
    ⟨(hc.post hh).congr hp hs hd,
      (held_congr (c := c.post h) hp fun _ _ => by rw [hs]; rfl).trans (held_post hh)⟩
  -- a handler waits already at the end of the strand
  have hlast : ∀ hx, Tidy bits (c.post hx) →
      Tidy bits (c'.post hx) ∧ held (c'.post hx) = held (c.post hx) := by
    intro hx hpost
    have hstrand : (c'.post hx).strand = c.strand ++ h :: [hx] := by
      rw [Core.post, hs, List.append_assoc]
      rfl
    refine ⟨(hpost.insert rfl hh fun heq => absurd heq hne).congr hp hstrand hd, ?_⟩
    rw [← held_insert (c := c.post hx) rfl hh]
    exact held_congr hp fun _ _ => by rw [hstrand]
  cases point with
  | dropping =>
    refine ⟨(hc.post hh).congr rfl hs hd, ?_⟩
    rw [ahead, ahead, held_of_none rfl, held_of_none rfl]
  | completing => exact hlast _ hc
  | telling =>
    unfold ahead at hc ⊢
    rw [hp, hchoke]
    cases hpiece : c.piece with
    | none =>
      rw [hpiece] at hc
      exact hend hc
    | some piece =>
      rw [hpiece] at hc
      dsimp only at hc ⊢
      split_ifs at hc ⊢
      · exact hend hc
      · exact hlast _ hc
  | _ => exact hend hc

/-! ### What can happen to the mark -/

/-- What can happen to the mark of a client. -/
inductive Change (m : Master) : Option ℕ → Master → Option ℕ → Prop
  | keeps (o : Option ℕ) : Change m o m o
  | claims (i : ℕ) (hfree : i ∉ m.requestedPieces) : Change m none (m.mark i) (some i)
  | releases (i : ℕ) : Change m (some i) (m.unmark i) none
  | handsOver (piece : Piece) :
      Change m (some piece.index) { m with jobs := m.jobs ++ [⟨piece.index, piece⟩] } none

/-- Whatever happens to the mark, no piece is done. -/
theorem Change.bitfield {m m' : Master} {o o' : Option ℕ} (h : Change m o m' o') :
    m'.bitfield = m.bitfield := by
  cases h <;> rfl

/-- The client is tidy, and its mark has changed as it can. -/
def Follows (m : Master) (o : Option ℕ) (m' : Master) (c' : Core) : Prop :=
  Tidy m.bitfield c' ∧ Change m o m' (held c')

theorem Follows.keeps {m : Master} {c : Core} (hc : Tidy m.bitfield c) : Follows m (held c) m c :=
  ⟨hc, .keeps _⟩

theorem Follows.post {m m' : Master} {o : Option ℕ} {c : Core} {h : Handler}
    (hc : Follows m o m' c) (hh : isNeutral h = true) : Follows m o m' (c.post h) :=
  ⟨hc.1.post hh, (held_post hh).symm ▸ hc.2⟩

theorem Follows.postIfSubscribed {m m' : Master} {o : Option ℕ} {c : Core} {h : Handler}
    (hc : Follows m o m' c) (hh : isNeutral h = true) : Follows m o m' (c.postIfSubscribed h) := by
  unfold Core.postIfSubscribed
  split_ifs
  · exact hc
  · exact hc.post hh

/-- A queued handler gives the active piece back. -/
def GivesBack (c : Core) : Prop :=
  ∀ piece, c.piece = some piece → .onChoked ∈ c.strand ∨ .clearAndTry ∈ c.strand ∨
    .cancelPiece piece.index ∈ c.strand ∨ .timeoutFired ∈ c.strand ∨ .pieceTimeout ∈ c.strand

instance (c : Core) : Decidable (GivesBack c) :=
  inferInstanceAs (Decidable (∀ piece ∈ c.piece, _))

/-- A client that is disconnected gives its piece back. -/
theorem follows_disconnect {m : Master} {c : Core} (hc : Tidy m.bitfield c)
    (hgive : c.isDisconnected = false → GivesBack c) : Follows m (held c) m c.disconnect := by
  unfold Core.disconnect
  split_ifs with hd
  · exact .keeps hc
  · have hpost := (Follows.keeps (m := m) hc).post (h := .cancelOperation) rfl
    refine ⟨⟨hpost.1.clearing, hpost.1.cancelling, hpost.1.once, hpost.1.choked, hpost.1.notTold,
      fun _ => ?_⟩, hpost.2⟩
    have hheld : held { c.post .cancelOperation with isDisconnected := true } = held c :=
      held_post (c := c) (h := .cancelOperation) rfl
    unfold Returns
    rw [hheld]
    cases hpiece : c.piece with
    | none => exact .inl (held_of_none hpiece)
    | some piece =>
      rcases hgive (by simpa using hd) piece hpiece with h | h | h | h | h
      · exact .inr (.inl (List.mem_append_left _ h))
      · exact .inl (held_of_given hpiece (.inl h))
      · exact .inl (held_of_given hpiece (.inr h))
      · exact .inr (.inr (.inr (fired_of_mem h)))
      · exact .inr (.inr (.inl (List.mem_append_left _ h)))

/-- A client claims the piece it draws. -/
theorem follows_claims {m : Master} {c : Core} {i blockCount : ℕ} (hc : Tidy m.bitfield c)
    (hnone : c.piece = none) (hcancel : .cancelPiece i ∉ c.strand)
    (hsub : c.isDisconnected = false) (hfree : i ∉ m.requestedPieces) :
    Follows m (held c) (m.mark i) { c with piece := some (newPiece i blockCount) } := by
  have hclear := hc.clearAndTry_not_mem hnone
  have hown : ¬ Given c.strand (newPiece i blockCount) := by
    rintro (h | h)
    · exact hclear h
    · exact hcancel h
  rw [held_of_none hnone]
  refine ⟨⟨fun h => absurd h hclear, fun j h => .inl (hc.mem_bits_of_none hnone h), hc.once,
    fun j hj _ hmem => ?_, hc.notTold, fun hd => ?_⟩, ?_⟩
  · cases hj
    exact absurd hmem hcancel
  · rw [hsub] at hd
    cases hd
  · rw [held_of_not_given (c := { c with piece := some (newPiece i blockCount) }) rfl hown]
    exact .claims i hfree

section Handlers

variable {m : Master} {c : Core} {rest : List Handler}

/-- The active piece is the client's own if nothing clears or cancels it. -/
theorem held_of_first {h : Handler} {piece : Piece} (hs : c.strand = h :: rest)
    (hh : isNeutral h = true) (hpiece : c.piece = some piece) (hclear : .clearAndTry ∉ rest)
    (hcancel : .cancelPiece piece.index ∉ rest) : held c = some piece.index := by
  rw [← held_tail hs hh]
  refine held_of_not_given hpiece ?_
  rintro (h | h)
  · exact hclear h
  · exact hcancel h

theorem not_mem_clearAndTry {h : Handler} (ho : InOrder c) (hs : c.strand = h :: rest)
    (hh : h = .onChoked ∨ ∃ index begin_ data, h = .block index begin_ data) :
    .clearAndTry ∉ rest := by
  obtain ⟨hl | hl, -⟩ := loopOf_rest_of_choke_or_block ho hs hh
  · exact not_mem_of_loopOf hl rfl (by simp)
  · exact not_mem_of_loopOf hl rfl (by simp)

/-- A cancel of a piece other than the active one is of a piece that is done. -/
theorem mem_bits_of_ne {bits : Finset ℕ} {piece : Piece} {i : ℕ} (hc : Tidy bits c)
    (hpiece : c.piece = some piece) (hmem : .cancelPiece i ∈ c.strand) (hne : i ≠ piece.index) :
    i ∈ bits := by
  refine (hc.cancelling i hmem).resolve_right fun hactive => ?_
  rw [activeIndex, hpiece] at hactive
  exact hne (Option.some.inj hactive).symm

/-- A choke releases the piece: nothing that clears or cancels it waits behind. -/
theorem follows_onChoked {piece : Piece} (ho : InOrder c) (hc : Tidy m.bitfield c)
    (hs : c.strand = .onChoked :: rest) (hpiece : c.piece = some piece) :
    Follows m (held c) (m.unmark piece.index) { c with strand := rest, piece := none } := by
  have hmem : ∀ {hd}, hd ∈ rest → hd ∈ c.strand := fun hm => hs ▸ List.mem_cons_of_mem _ hm
  have hclear := not_mem_clearAndTry ho hs (.inl rfl)
  -- no second choke is queued, behind which a cancel could be
  have hchoke : .onChoked ∉ rest := by
    obtain ⟨hl | hl, -⟩ := loopOf_rest_of_choke_or_block ho hs (.inl rfl)
    · exact not_mem_of_loopOf hl rfl (by simp)
    · exact not_mem_of_loopOf hl rfl (by simp)
  have hown : .cancelPiece piece.index ∉ rest := fun hm => by
    have hsub := hc.choked piece.index (by rw [activeIndex, hpiece]; rfl)
      (hs ▸ List.mem_cons_self) (hmem hm)
    rw [hs] at hsub
    rcases List.sublist_cons_iff.mp hsub with hsub | ⟨l, heq, -⟩
    · exact hchoke (hsub.subset (by simp))
    · cases heq
  have hcancel : ∀ i, .cancelPiece i ∈ rest → i ∈ m.bitfield := fun i hm =>
    mem_bits_of_ne hc hpiece (hmem hm) fun heq => hown (heq ▸ hm)
  rw [held_of_first hs rfl hpiece hclear hown]
  refine ⟨.of_none rfl hclear hcancel fun i hm => hc.notTold i (hmem hm), ?_⟩
  rw [held_of_none rfl]
  exact .releases piece.index

/-- A block that does not complete the piece leaves the mark alone. -/
theorem follows_stores {piece : Piece} {index begin_ : ℕ} {data : List UInt8}
    (hc : Tidy m.bitfield c) (hs : c.strand = .block index begin_ data :: rest)
    (hpiece : c.piece = some piece) :
    Follows m (held c) m { c with strand := rest, piece := some (stored piece begin_ data) } := by
  have ht := hc.tail_of_not_return hs rfl rfl
  have hheld : held { c with strand := rest, piece := some (stored piece begin_ data) } =
      held { c with strand := rest } := by
    rw [held, held, hpiece]
    rfl
  have hactive : activeIndex { c with strand := rest, piece := some (stored piece begin_ data) } =
      activeIndex { c with strand := rest } := by
    rw [activeIndex, activeIndex, hpiece]
    rfl
  rw [← held_tail hs rfl, ← hheld]
  refine .keeps ⟨fun hm => ?_, fun i hm => ?_, ht.once, fun i hi => ?_, ht.notTold, fun hd => ?_⟩
  · obtain ⟨piece', hpiece', hcancel⟩ := ht.clearing hm
    cases hpiece.symm.trans hpiece'
    exact ⟨_, rfl, hcancel⟩
  · rw [hactive]
    exact ht.cancelling i hm
  · rw [hactive] at hi
    exact ht.choked i hi
  · have hgone := ht.gone hd
    unfold Returns at hgone ⊢
    rwa [hheld]

/-- The last block hands the mark over to the write job. -/
theorem follows_completes {piece : Piece} {begin_ : ℕ} {data : List UInt8} (ho : InOrder c)
    (hc : Tidy m.bitfield c) (hs : c.strand = .block piece.index begin_ data :: rest)
    (hpiece : c.piece = some piece) (hcancel : .cancelPiece piece.index ∉ rest) :
    Follows m (held c) { m with jobs := m.jobs ++ [⟨piece.index, stored piece begin_ data⟩] }
      ({ c with strand := rest, piece := some (movedFrom (stored piece begin_ data)) }.post
        .clearAndTry) := by
  have hmem : ∀ {hd}, hd ∈ rest → hd ∈ c.strand := fun hm => hs ▸ List.mem_cons_of_mem _ hm
  have hclear := not_mem_clearAndTry ho hs (.inr ⟨_, begin_, data, rfl⟩)
  have hlast : ∀ {hd}, hd ∈ rest ++ [.clearAndTry] → hd ≠ .clearAndTry → hd ∈ rest := by
    intro hd hm hne
    simpa [hne] using hm
  set moved : Core := { c with strand := rest, piece := some (movedFrom (stored piece begin_ data)) }
  have hheld : held (moved.post .clearAndTry) = none :=
    held_of_given rfl (.inl (List.mem_append_right _ (List.mem_singleton_self _)))
  have hnone : .cancelPiece piece.index ∉ rest ++ [.clearAndTry] := fun hm =>
    hcancel (hlast hm nofun)
  rw [held_of_first hs rfl hpiece hclear hcancel]
  refine ⟨⟨fun _ => ⟨_, rfl, hnone⟩, fun i hm => .inl ?_, fun i hi => ?_, fun i hi _ hm => ?_,
    fun i hm => hc.notTold i (hmem (hlast hm nofun)), fun _ => .inl hheld⟩, ?_⟩
  · have hm := hlast hm nofun
    exact mem_bits_of_ne hc hpiece (hmem hm) fun heq => hcancel (heq ▸ hm)
  · change (rest ++ [Handler.clearAndTry]).count (.cancelPiece i) ≤ 1
    rw [List.count_append, List.count_singleton]
    simpa using hc.count_rest hs hi
  · cases hi
    exact absurd hm hnone
  · rw [hheld]
    exact .handsOver (stored piece begin_ data)

/-- `ClearAndTryRequest` resets the active piece, which was not the client's own any more. -/
theorem follows_clearAndTry (ho : InOrder c) (hc : Tidy m.bitfield c)
    (hs : c.strand = .clearAndTry :: rest) :
    Follows m (held c) m { c with strand := rest, piece := none } := by
  have hfirst : .clearAndTry ∈ c.strand := hs ▸ List.mem_cons_self
  have hmem : ∀ {hd}, hd ∈ rest → hd ∈ c.strand := fun hm => hs ▸ List.mem_cons_of_mem _ hm
  obtain ⟨piece, hpiece, hcancel⟩ := hc.clearing hfirst
  have hclear : .clearAndTry ∉ rest := by
    rcases loopOf_rest_of_clearAndTry ho hs with hl | ⟨msg, hl, -⟩
    · exact not_mem_of_loopOf hl rfl (by simp)
    · exact not_mem_of_loopOf hl rfl (by simp)
  rw [held_of_given hpiece (.inl hfirst)]
  refine ⟨.of_none rfl hclear (fun i hm => ?_) fun i hm => hc.notTold i (hmem hm), ?_⟩
  · exact mem_bits_of_ne hc hpiece (hmem hm) fun heq => hcancel (heq ▸ hmem hm)
  · rw [held_of_none rfl]
    exact .keeps none

/-- A timeout releases the piece and cancels it. -/
theorem follows_pieceTimeout {piece : Piece} (ho : InOrder c) (hc : Tidy m.bitfield c)
    (hs : c.strand = .pieceTimeout :: rest) (hpiece : c.piece = some piece)
    (hclear : .clearAndTry ∉ rest) (hcancel : .cancelPiece piece.index ∉ rest)
    (hchoke : c.peerChoking = false) :
    Follows m (held c) (m.unmark piece.index)
      ({ c with strand := rest }.post (.cancelPiece piece.index)) := by
  have hmem : ∀ {hd}, hd ∈ rest → hd ∈ c.strand := fun hm => hs ▸ List.mem_cons_of_mem _ hm
  have hchoked : .onChoked ∉ rest := fun hm => by
    have := ho.choked (hmem hm)
    rw [hchoke] at this
    cases this
  have hlast : ∀ {hd}, hd ∈ rest ++ [.cancelPiece piece.index] → hd ≠ .cancelPiece piece.index →
      hd ∈ rest := by
    intro hd hm hne
    simpa [hne] using hm
  have hheld : held ({ c with strand := rest }.post (.cancelPiece piece.index)) = none :=
    held_of_given hpiece (.inr (List.mem_append_right _ (List.mem_singleton_self _)))
  rw [held_of_first hs rfl hpiece hclear hcancel]
  refine ⟨⟨fun hm => absurd (hlast hm nofun) hclear, fun i hm => ?_, fun i hi => ?_,
    fun i _ hm => absurd (hlast hm nofun) hchoked, fun i hm => hc.notTold i (hmem (hlast hm nofun)),
    fun _ => .inl hheld⟩, ?_⟩
  · by_cases heq : i = piece.index
    · refine .inr ?_
      rw [activeIndex, heq]
      exact congrArg (Option.map Piece.index) hpiece
    · exact .inl (mem_bits_of_ne hc hpiece (hmem (hlast hm (by simpa using heq))) heq)
  · change (rest ++ [Handler.cancelPiece piece.index]).count (.cancelPiece i) ≤ 1
    rw [List.count_append, List.count_singleton]
    by_cases heq : i = piece.index
    · rw [heq, List.count_eq_zero_of_not_mem hcancel]
      simp
    · simpa [Ne.symm heq] using hc.count_rest hs hi
  · rw [hheld]
    exact .releases piece.index

/-- The callback of the timer posts the handler that gives the piece back. -/
theorem follows_timeoutFired (hc : Tidy m.bitfield c) (hs : c.strand = .timeoutFired :: rest) :
    Follows m (held c) m ({ c with strand := rest }.post .pieceTimeout) := by
  have hpost : Tidy m.bitfield (c.post .pieceTimeout) := hc.post rfl
  have hs' : (c.post .pieceTimeout).strand = .timeoutFired :: (rest ++ [.pieceTimeout]) := by
    rw [Core.post, hs]
    rfl
  have hheld : held ({ c with strand := rest }.post .pieceTimeout) = held c :=
    (held_post (c := { c with strand := rest }) rfl).trans (held_tail hs rfl)
  rw [← hheld]
  refine .keeps (hpost.tail_of_returns hs' (fun i _ heq => ?_) fun _ => .inr (.inr (.inl (by simp))))
  cases heq

/-- A cancel resets the piece, which was not the client's own any more. -/
theorem follows_cancelPiece {piece : Piece} (hc : Tidy m.bitfield c)
    (hs : c.strand = .cancelPiece piece.index :: rest) (hpiece : c.piece = some piece) :
    Follows m (held c) m { c with strand := rest, piece := none } := by
  have hmem : ∀ {hd}, hd ∈ rest → hd ∈ c.strand := fun hm => hs ▸ List.mem_cons_of_mem _ hm
  have hfirst : .cancelPiece piece.index ∈ c.strand := hs ▸ List.mem_cons_self
  have hclear : .clearAndTry ∉ rest := fun hm => by
    obtain ⟨piece', hpiece', hcancel⟩ := hc.clearing (hmem hm)
    cases hpiece.symm.trans hpiece'
    exact hcancel hfirst
  have hcancel : ∀ i, .cancelPiece i ∈ rest → i ∈ m.bitfield := fun i hm => by
    by_contra hi
    have heq : i = piece.index := by
      by_contra hne
      exact hi (mem_bits_of_ne hc hpiece (hmem hm) hne)
    have honce := hc.once i hi
    rw [hs, heq, List.count_cons_self] at honce
    exact List.count_eq_zero.mp (by omega) (heq ▸ hm)
  rw [held_of_given hpiece (.inr hfirst)]
  refine ⟨.of_none rfl hclear hcancel fun i hm => hc.notTold i (hmem hm), ?_⟩
  rw [held_of_none rfl]
  exact .keeps none

/-- A cancel of a piece that is done is posted: the client owns no mark of it. -/
theorem follows_cancelDone {i : ℕ} (hc : Tidy m.bitfield c) (hdone : i ∈ m.bitfield)
    (hclear : .clearAndTry ∉ c.strand)
    (hgiven : ∀ piece, c.piece = some piece → piece.index = i → Given c.strand piece) :
    Follows m (held c) m (c.post (.cancelPiece i)) := by
  have hlast : ∀ {hd}, hd ∈ c.strand ++ [.cancelPiece i] → hd ≠ .cancelPiece i → hd ∈ c.strand := by
    intro hd hm hne
    simpa [hne] using hm
  have hold : ∀ piece, c.piece = some piece → piece.index = i → .cancelPiece i ∈ c.strand :=
    fun piece hpiece hi => hi ▸ (hgiven piece hpiece hi).resolve_left hclear
  have hheld : held (c.post (.cancelPiece i)) = held c := by
    refine held_of_given_congr rfl fun piece hpiece => ?_
    refine or_congr ⟨fun hm => hlast hm nofun, List.mem_append_left _⟩ ⟨fun hm => ?_, fun hm =>
      List.mem_append_left _ hm⟩
    by_cases hi : piece.index = i
    · rw [hi]
      exact hold piece hpiece hi
    · exact hlast hm (by simpa using hi)
  rw [← hheld]
  refine .keeps ⟨fun hm => absurd (hlast hm nofun) hclear, fun j hm => ?_, fun j hj => ?_,
    fun j hj hchoke hm => ?_, fun j hm => hc.notTold j (hlast hm nofun), fun hd => ?_⟩
  · by_cases hji : j = i
    · exact .inl (hji ▸ hdone)
    · exact hc.cancelling j (hlast hm (by simpa using hji))
  · have hne : i ≠ j := fun heq => hj (heq ▸ hdone)
    change (c.strand ++ [Handler.cancelPiece i]).count (.cancelPiece j) ≤ 1
    rw [List.count_append, List.count_singleton]
    simpa [hne] using hc.once j hj
  · have hm : .cancelPiece j ∈ c.strand := by
      by_cases hji : j = i
      · obtain ⟨piece, hpiece, hj⟩ := Option.map_eq_some_iff.mp hj
        exact hji ▸ hold piece hpiece (hj.trans hji)
      · exact hlast hm (by simpa using hji)
    exact (hc.choked j hj (hlast hchoke nofun) hm).trans (List.sublist_append_left ..)
  · rcases hc.gone hd with h | h | h | h
    · exact .inl (hheld.trans h)
    · exact .inr (.inl (List.mem_append_left _ h))
    · exact .inr (.inr (.inl (List.mem_append_left _ h)))
    · exact .inr (.inr (.inr (h.trans (List.sublist_append_left ..))))

end Handlers

end CppTorrent.Swarm.Marks
