import CppTorrent.Lib.Ledger
import CppTorrent.Swarm.Marks
import CppTorrent.Swarm.OnePeer

/-! # The set of requested pieces

Under the default strategy a piece is marked in `requested_pieces_` when a client chooses it. The mark
is then owned by the client (`Swarm.Marks`), later by the write job of the piece, and it is removed when
the client is choked, when the piece times out, or when the job is done. With the write jobs, those that
are queued and those under way, the clients keep a balanced ledger (`Lib.Ledger`).

The ledger breaks where a piece gets two owners or its owner loses it on another way. `ChoosePiece` marks
a piece some time after it has asked whether it is marked, and another client may have marked it since.
`Disconnect` does not give the active piece back, a handler that runs after it can choose another one, a
block of another piece makes a job that removes the wrong mark, a timeout can remove a mark that is not
the client's own any more, and a client whose piece has been done by another resets it and leaves the
mark. `truthful_run` is that these are all: in a run without them, whenever no handler is under way and
no posted one is pending, exactly the active pieces of the subscribed clients and the pieces of the write
jobs are marked. -/

namespace CppTorrent.Swarm.RequestedPieces

open CppTorrent.Files.Blocks CppTorrent.Files.Storage CppTorrent.Lib.Ledger CppTorrent.Lib.Runs
open CppTorrent.Swarm.Model CppTorrent.Swarm.Steps CppTorrent.Swarm.Calls
open CppTorrent.Swarm.Interleaving CppTorrent.Swarm.Holding CppTorrent.Swarm.Advance
open CppTorrent.Swarm.InterleavedOrder CppTorrent.Swarm.Marks CppTorrent.Swarm.Progress
open CppTorrent.Swarm.OnePeer CppTorrent.Swarm.ReadOrder

variable {n : ℕ}

/-- The handlers queued by `Post`; the others are callbacks of the socket and of the timers. -/
def isPosted : Handler → Bool
  | .message _ | .timeoutFired | .keepAlive | .disconnect => false
  | _ => true

/-- No handler is under way, and no posted handler is pending. -/
def Quiescent (s : Interleaved n) : Prop :=
  ∀ p, s.points p = .idle ∧ ∀ h ∈ (s.system.clients p).strand, isPosted h = false

/-- **`requested_pieces_` tells the truth**: a piece is marked if and only if it is the active piece
of a subscribed client or the piece of a write job, queued or under way. -/
def Truthful (s : Interleaved n) : Prop :=
  ∀ i, i ∈ s.system.master.requestedPieces ↔
    (∃ p, (s.system.clients p).isDisconnected = false ∧ (s.system.clients p).isActive i = true) ∨
      (∃ req ∈ s.system.master.jobs, req.piece.index = i) ∨ i ∈ s.ending

/-! ### The condition -/

/-- A handler that can lose a mark does not: a client that is disconnected has its piece given back
by a queued handler, a block that completes the active piece belongs to it and finds no cancel of it
queued, a timeout finds a piece that is the client's own and not choked. -/
def Allowed (rejected : Message → Bool) (c : Core) (rest : List Handler) : Handler → Prop
  | .message msg =>
    rejected msg = true → c.isDisconnected = false → GivesBack { c with strand := rest }
  | .disconnect => c.isDisconnected = false → GivesBack { c with strand := rest }
  | .block index _ _ => ∀ piece, c.piece = some piece →
    piece.currentBlocksNum + 1 = piece.blockCount →
    piece.index = index ∧ .cancelPiece index ∉ rest
  | .pieceTimeout => ∀ piece, c.piece = some piece →
    .clearAndTry ∉ rest ∧ .cancelPiece piece.index ∉ rest ∧ c.peerChoking = false
  | _ => True

instance (rejected : Message → Bool) (c : Core) (rest : List Handler) :
    ∀ h, Decidable (Allowed rejected c rest h)
  | .message _ => inferInstanceAs (Decidable (_ → _ → GivesBack _))
  | .disconnect => inferInstanceAs (Decidable (_ → GivesBack _))
  | .block _ _ _ => inferInstanceAs (Decidable (∀ piece ∈ c.piece, _ → _))
  | .pieceTimeout => inferInstanceAs (Decidable (∀ piece ∈ c.piece, _))
  | .read | .onChoked | .clearAndTry | .timeoutFired | .cancelPiece _ | .tryToRequest
  | .cancelIfActive _ | .keepAlive | .cancelOperation => .isTrue trivial

/-- The piece that `OnPieceBlock` has found requested, and will look for among those that are done. -/
def received : Point → Option ℕ
  | .receiving index _ _ => some index
  | _ => none

/-- The condition on a step of a client: only a subscribed client marks a piece, and one that is not
marked; a handler that starts loses no mark; and a block of a piece that is done by then is not of the
active piece, unless that is given up already. -/
structure OrderlyAt (rejected : Message → Bool) (r : ℕ) (m : Master) (c : Core) (point : Point) :
    Prop where
  marking : ∀ i ∈ marks r point, c.isDisconnected = false ∧ i ∉ m.requestedPieces
  starting : point = .idle → ∀ h ∈ c.strand.head?, Allowed rejected c c.strand.tail h
  cancelling : ∀ i ∈ received point, i ∈ m.bitfield →
    ∀ piece ∈ c.piece, piece.index = i → Given c.strand piece

instance (rejected : Message → Bool) (r : ℕ) (m : Master) (c : Core) (point : Point) :
    Decidable (OrderlyAt rejected r m c point) :=
  decidable_of_iff
    ((∀ i ∈ marks r point, c.isDisconnected = false ∧ i ∉ m.requestedPieces) ∧
      (point = .idle → ∀ h ∈ c.strand.head?, Allowed rejected c c.strand.tail h) ∧
      ∀ i ∈ received point, i ∈ m.bitfield → ∀ piece ∈ c.piece, piece.index = i →
        Given c.strand piece)
    ⟨fun h => ⟨h.1, h.2.1, h.2.2⟩, fun h => ⟨h.marking, h.starting, h.cancelling⟩⟩

/-- The condition on a step. -/
def Orderly (cfg : Config) (s : Interleaved n) : Action n → Prop
  | .next p r => OrderlyAt (rejects cfg (s.system.clients p)) r s.system.master (coreOf s.system p)
      (s.points p)
  | _ => True

instance (cfg : Config) (s : Interleaved n) : ∀ a, Decidable (Orderly cfg s a)
  | .next _ _ => inferInstanceAs (Decidable (OrderlyAt _ _ _ _ _))
  | .arrive _ _ | .expire _ | .keepAlive _ | .fail _ | .work _ _ | .unbind _ => .isTrue trivial

/-! ### A step of a client -/

/-- The default strategy, for a torrent whose pieces are numbered by 32-bit numbers. -/
structure Plain (cfg : Config) : Prop where
  optimal : cfg.optimal = false
  total : cfg.total ≤ 2 ^ 32

/-- A client in `ChoosePiece` has no active piece, and no cancel of a piece that it can draw is
queued. -/
def Draws (c : Core) : Point → Prop
  | .choosing _ => c.piece = none
  | .looking _ rest ids => c.piece = none ∧ (∀ i ∈ rest, i < 2 ^ 32) ∧
    ∀ i ∈ rest ++ ids, .cancelPiece i ∉ c.strand
  | _ => True

/-- What a run keeps of a client. -/
structure Sound (bits : Finset ℕ) (c : Core) (point : Point) : Prop where
  order : InOrderAt c point
  tidy : Tidy bits (ahead c point)
  draws : Draws c point

section Client

variable {cfg : Config} {r : ℕ} {m m' : Master} {c c' : Client} {point point' : Point} {h : Handler}
  {rest : List Handler}

/-- A block that is not of a requested piece is ignored, or ends the connection. -/
theorem onPieceBlock_of_firstAccess {index begin_ : ℕ} {data : List UInt8}
    (hfirst : firstAccess cfg m c (.message (.piece index begin_ data)) = none)
    (hend : cfg.inEndGame m = false) :
    onPieceBlock cfg m index begin_ data c = if cfg.total ≤ index then disconnect c else c := by
  dsimp only [firstAccess] at hfirst
  split_ifs at hfirst with hno
  unfold onPieceBlock
  by_cases htotal : cfg.total ≤ index
  · rw [if_pos htotal, if_pos htotal]
  · rw [if_neg htotal, if_neg htotal]
    by_cases hlen : mostRequestSize < data.length
    · rw [if_pos hlen]
    · have hreq : index ∉ m.requestedPieces := fun hmem => hno ⟨by omega, by omega, hmem⟩
      rw [if_neg hlen, if_pos ⟨by simp [hend], hreq⟩]

theorem inEndGame_eq_false (hcfg : Plain cfg) (m : Master) : cfg.inEndGame m = false := by
  rw [Config.inEndGame, hcfg.optimal]
  rfl

/-- A message that does not call `TryToRequestPiece` and has one access. -/
theorem follows_message {msg : Message} (hcfg : Plain cfg) (hc : Tidy m.bitfield (core c))
    (hallow : rejects cfg c msg = true → (core c).isDisconnected = false → GivesBack (core c))
    (hfirst : firstAccess cfg m c (.message msg) = none)
    (hex : execute cfg r m c (.message msg) = some (m', c')) :
    Follows m (held (core c)) m' (core c') := by
  have hcall := callOf_of_firstAccess hfirst
  have hnone := piece_of_no_call hcall hex
  by_cases hpiece : ∃ index begin_ data, msg = .piece index begin_ data
  · obtain ⟨index, begin_, data, rfl⟩ := hpiece
    obtain ⟨rfl, rfl⟩ := Prod.mk.inj (Option.some.inj hex)
    rw [core_doReadHeader, onPieceBlock_of_firstAccess hfirst (inEndGame_eq_false hcfg m)]
    split_ifs with htotal
    · rw [core_disconnect]
      exact (follows_disconnect hc (hallow (decide_eq_true htotal))).postIfSubscribed rfl
    · exact (Follows.keeps hc).postIfSubscribed rfl
  · have hact := act_execute hex
    generalize core c' = d at hnone hact ⊢
    cases hact with
    | keepAliveFrame => exact .keeps hc
    | message hres =>
      rw [piece_postIfSubscribed] at hnone
      refine Follows.postIfSubscribed ?_ rfl
      cases hres with
      | ignores => exact .keeps hc
      | choke =>
        have hc' : Tidy m.bitfield { core c with peerChoking := true } := hc.congr rfl rfl rfl
        exact (Follows.keeps hc').post rfl
      | unchoke => cases hcall
      | offer _ hatt =>
        obtain ⟨rfl, rfl⟩ := attempt_keeps hatt hnone
        exact .keeps hc
      | rejects hmsg => exact follows_disconnect hc (hallow hmsg)
      | cancels index begin_ data => exact absurd ⟨index, begin_, data, rfl⟩ hpiece
      | accepts index begin_ data => exact absurd ⟨index, begin_, data, rfl⟩ hpiece
    | idle _ hh => rcases hh with hh | hh <;> cases hh
    | notActive id _ hh => rcases hh with hh | hh <;> cases hh

/-- **A handler with one access.** -/
theorem follows_calm (hcfg : Plain cfg) (hc : Tidy m.bitfield (core c)) (hs : c.strand = h :: rest)
    (hallow : Allowed (rejects cfg c) (core c) rest h)
    (hfirst : firstAccess cfg m { c with strand := rest } h = none)
    (hex : execute cfg r m { c with strand := rest } h = some (m', c')) :
    Follows m (held (core c)) m' (core c') := by
  have hs : (core c).strand = h :: rest := hs
  by_cases hmsg : ∃ msg, h = .message msg
  · obtain ⟨msg, rfl⟩ := hmsg
    rw [← held_tail hs rfl]
    exact follows_message hcfg (c := { c with strand := rest }) (hc.tail_of_not_return hs rfl rfl) hallow hfirst hex
  have hcall := callOf_of_firstAccess hfirst
  have hnone := piece_of_no_call hcall hex
  have hact := act_execute hex
  generalize core c' = d at hnone hact ⊢
  cases hact with
  | read =>
    rw [← held_tail hs rfl]
    exact ⟨(hc.tail_of_not_return hs rfl rfl).congr rfl rfl rfl, .keeps _⟩
  | keepAliveFrame => exact absurd ⟨_, rfl⟩ hmsg
  | message => exact absurd ⟨_, rfl⟩ hmsg
  | idle hpiece hh =>
    have hneutral : isNeutral h = true := by rcases hh with rfl | rfl <;> rfl
    rw [← held_tail hs hneutral]
    exact .keeps (hc.tail hs hneutral fun _ => hpiece)
  | onChoked piece hpiece =>
    have hact : c.activePiece = none := Option.map_eq_none_iff.mp hfirst
    rw [core, hact] at hpiece
    cases hpiece
  | stores piece index begin_ data hpiece => exact follows_stores hc hs hpiece
  | completes piece index begin_ data hpiece hslot hlast =>
    obtain ⟨⟨piece', offset⟩, hact, rfl⟩ := Option.map_eq_some_iff.mp hpiece
    dsimp only [firstAccess] at hfirst
    rw [hact] at hfirst
    dsimp only at hfirst
    rw [if_pos ⟨hslot, hlast⟩] at hfirst
    cases hfirst
  | clearAndTry => cases hcall
  | timeoutFired => exact follows_timeoutFired hc hs
  | pieceTimeout piece hpiece =>
    have hact : c.activePiece = none := Option.map_eq_none_iff.mp hfirst
    rw [core, hact] at hpiece
    cases hpiece
  | cancelPiece piece hpiece => exact follows_cancelPiece hc hs hpiece
  | notActive id hid hh =>
    rcases hh with rfl | rfl
    · have hne : activeIndex (core c) ≠ some id := fun hactive => by
        obtain ⟨piece, hpiece, hi⟩ := Option.map_eq_some_iff.mp hactive
        exact hid piece hpiece hi
      obtain ⟨ht, hheld⟩ := hc.tail_cancelPiece hs hne
      rw [← hheld]
      exact .keeps ht
    · exact absurd (hs ▸ List.mem_cons_self) (hc.notTold id)
  | tryToRequest => cases hcall
  | cancelIfActive piece => exact absurd (hs ▸ List.mem_cons_self) (hc.notTold piece.index)
  | keepAlive hatt =>
    obtain ⟨rfl, rfl⟩ := attempt_keeps hatt hnone
    rw [← held_tail hs rfl]
    exact .keeps (hc.tail_of_not_return hs rfl rfl)
  | disconnect =>
    rw [← held_tail hs rfl]
    exact follows_disconnect (hc.tail_of_not_return hs rfl rfl) hallow
  | cancelOperation =>
    rw [← held_tail hs rfl]
    exact ⟨(hc.tail_of_not_return hs rfl rfl).congr rfl rfl rfl, .keeps _⟩

/-- A handler calls `TryToRequestPiece`. -/
theorem follows_calls (ho : InOrderAt (core c) .idle) (hc : Tidy m.bitfield (core c))
    (hs : c.strand = h :: rest) (hcall : callOf cfg m { c with strand := rest } h = some c') :
    Follows m (held (core c)) m (core c') := by
  have hs : (core c).strand = h :: rest := hs
  by_cases hclear : h = .clearAndTry
  · subst hclear
    cases hcall
    exact follows_clearAndTry ho.order hc hs
  · have hneutral : isNeutral h = true := by
      cases h with
      | clearAndTry => exact absurd rfl hclear
      | cancelPiece => cases hcall
      | cancelIfActive => cases hcall
      | _ => rfl
    have hreturn : isReturn h = true → (core c).piece = none := fun hr => by
      cases h with
      | onChoked => cases hcall
      | timeoutFired => cases hcall
      | pieceTimeout => cases hcall
      | _ => cases hr
    have hcalled := called_callOf hcall
    have hpiece : (core c').piece = (core { c with strand := rest }).piece :=
      hcalled.piece.resolve_right fun heq => hclear heq.1
    rw [← held_tail hs hneutral]
    refine ⟨(hc.tail hs hneutral hreturn).congr hpiece hcalled.strand hcalled.subscribed, ?_⟩
    rw [held_congr (c := core { c with strand := rest }) hpiece fun _ _ => by rw [hcalled.strand]]
    exact .keeps _

/-- A handler that is not over after its first access. -/
theorem follows_firstAccess (hc : Sound m.bitfield (core c) .idle) (hs : c.strand = h :: rest)
    (hallow : Allowed (rejects cfg c) (core c) rest h)
    (hfirst : FirstAccess cfg m { c with strand := rest } h m' c' point') :
    Follows m (held (core c)) m' (ahead (core c') point') ∧ Draws (core c') point' := by
  have hstrand : (core c).strand = h :: rest := hs
  have hactive : ∀ {piece : Piece} {offset : ℕ}, c.activePiece = some (piece, offset) →
      (core c).piece = some piece := fun hact => congrArg (Option.map Prod.fst) hact
  cases hfirst with
  | chokes piece offset hact =>
    exact ⟨follows_onChoked hc.order.order hc.tidy hstrand (hactive hact), trivial⟩
  | timesOut piece offset hact =>
    have hpiece : (core { c with strand := rest }).piece = some piece := hactive hact
    obtain ⟨hclear, hcancel, hchoke⟩ := hallow piece hpiece
    have hchoke' : (core { c with strand := rest }).peerChoking = false := hchoke
    refine ⟨?_, trivial⟩
    rw [ahead, hpiece]
    dsimp only
    rw [hchoke', if_neg Bool.false_ne_true]
    exact follows_pieceTimeout hc.order.order hc.tidy hstrand hpiece hclear hcancel hchoke
  | completes index begin_ data piece offset hact hslot hlast =>
    obtain ⟨rfl, hcancel⟩ := hallow piece (hactive hact) hlast
    exact ⟨follows_completes hc.order.order hc.tidy hstrand (hactive hact) hcancel, trivial⟩
  | receives index begin_ data hlt hlen hreq =>
    refine ⟨?_, trivial⟩
    rw [← held_tail hstrand rfl]
    exact .keeps (hc.tidy.tail_of_not_return hstrand rfl rfl)
  | calls hcall => exact ⟨follows_calls hc.order hc.tidy hs hcall, trivial⟩

/-- **A handler starts.** -/
theorem follows_start (hcfg : Plain cfg) (hc : Sound m.bitfield (core c) .idle)
    (hs : c.strand = h :: rest) (hallow : Allowed (rejects cfg c) (core c) rest h)
    (hstart : start cfg m { c with strand := rest } h = some (m', c', point')) :
    Follows m (held (core c)) m' (ahead (core c') point') ∧ Draws (core c') point' := by
  unfold start at hstart
  cases hfirst : firstAccess cfg m { c with strand := rest } h with
  | none =>
    rw [hfirst] at hstart
    obtain ⟨⟨m1, c1⟩, hex, heq⟩ := Option.map_eq_some_iff.mp hstart
    cases heq
    exact ⟨follows_calm hcfg hc.tidy hs hallow hfirst hex, trivial⟩
  | some res =>
    rw [hfirst] at hstart
    cases hstart
    exact follows_firstAccess hc hs hallow (firstAccess_spec hfirst)

/-- The end of a handler that has called `TryToRequestPiece`. -/
theorem Follows.resume {o : Option ℕ} (hc : Follows m o m' (core c)) :
    Follows m o m' (core (resume h c)) := by
  cases h with
  | message msg =>
    rw [Calls.resume, core_doReadHeader]
    exact hc.postIfSubscribed rfl
  | _ => exact hc

/-- What another client or a write job posts does not change the mark. -/
theorem tidy_ahead_postIfSubscribed {bits : Finset ℕ} {c : Core} {point : Point} {h : Handler}
    (hc : Tidy bits (ahead c point)) (hh : isNeutral h = true) (hne : h ≠ .onChoked) :
    Tidy bits (ahead (c.postIfSubscribed h) point) ∧
      held (ahead (c.postIfSubscribed h) point) = held (ahead c point) := by
  unfold Core.postIfSubscribed
  split_ifs
  · exact ⟨hc, rfl⟩
  · exact tidy_ahead_posted rfl rfl rfl rfl hc hh hne

/-- The timeout tells the client itself as well, and cancels the piece. -/
theorem follows_telling {piece : Piece} {offset : ℕ} (hc : Tidy m.bitfield (ahead (core c) .telling))
    (hact : c.activePiece = some (piece, offset)) :
    Follows m (held (ahead (core c) .telling)) m
      (core (if (c.postIfSubscribed .tryToRequest).peerChoking then c.postIfSubscribed .tryToRequest
        else (c.postIfSubscribed .tryToRequest).post (.cancelPiece piece.index))) := by
  have hpiece : (core (c.postIfSubscribed .tryToRequest)).piece = some piece := by
    rw [core_postIfSubscribed, piece_postIfSubscribed]
    exact congrArg (Option.map Prod.fst) hact
  have hahead : core (if (c.postIfSubscribed .tryToRequest).peerChoking then
      c.postIfSubscribed .tryToRequest
      else (c.postIfSubscribed .tryToRequest).post (.cancelPiece piece.index)) =
      ahead (core (c.postIfSubscribed .tryToRequest)) .telling := by
    rw [ahead, hpiece]
    exact apply_ite core _ _ _
  obtain ⟨ht, hheld⟩ := tidy_ahead_postIfSubscribed (h := .tryToRequest) hc rfl (by simp)
  rw [hahead, core_postIfSubscribed, ← hheld]
  exact .keeps ht

/-- `OnPieceBlock` goes on after it has found the piece requested. -/
theorem follows_receiving {index begin_ : ℕ} {data : List UInt8}
    (hc : Sound m.bitfield (core c) (.receiving index begin_ data))
    (hcancel : index ∈ m.bitfield → ∀ piece, (core c).piece = some piece → piece.index = index →
      Given (core c).strand piece) :
    Follows m (held (core c)) m (core (doReadHeader (if index ∈ m.bitfield then
      c.post (.cancelPiece index)
      else Client.post (.block index begin_ data) { c with waiting := false }))) := by
  have ht : Tidy m.bitfield (core c) := hc.tidy
  rw [core_doReadHeader]
  refine Follows.postIfSubscribed ?_ rfl
  split_ifs with hdone
  · have hclear : .clearAndTry ∉ (core c).strand :=
      not_mem_of_loopOf (hc.order.message rfl).1 rfl (by simp)
    exact follows_cancelDone ht hdone hclear (hcancel hdone)
  · exact (Follows.keeps ht).post rfl

/-- The pieces that `ChoosePiece` copies are not done, so no cancel of them is queued. -/
theorem draws_mismatched (hcfg : Plain cfg) (hc : Tidy m.bitfield (core c))
    (hnone : (core c).piece = none) : Draws (core c) (.looking h (mismatched cfg m c) []) := by
  refine ⟨hnone, fun i hi => ?_, fun i hi hmem => ?_⟩
  · exact (List.mem_range.mp (List.mem_filter.mp hi).1).trans_le hcfg.total
  · rw [List.append_nil] at hi
    obtain ⟨hdone, -⟩ := of_decide_eq_true (List.mem_filter.mp hi).2
    exact hdone (hc.mem_bits_of_none hnone hmem)

/-- **A step of a client.** -/
theorem follows_advance (hcfg : Plain cfg) (hc : Sound m.bitfield (core c) point)
    (horderly : OrderlyAt (rejects cfg c) r m (core c) point)
    (hadv : advance cfg r m c point = some (m', c', point')) :
    Follows m (held (ahead (core c) point)) m' (ahead (core c') point') ∧
      Draws (core c') point' := by
  cases point with
  | idle =>
    dsimp only [advance] at hadv
    cases hstrand : c.strand with
    | nil => rw [hstrand] at hadv; cases hadv
    | cons h rest =>
      have hallow := horderly.starting rfl
      rw [show (core c).strand = h :: rest from hstrand] at hallow
      rw [hstrand] at hadv
      exact follows_start hcfg hc hstrand (hallow h rfl) hadv
  | calling h =>
    have ht : Tidy m.bitfield (core c) := hc.tidy
    dsimp only [advance] at hadv
    cases hat : atChoice cfg m c with
    | some c1 =>
      rw [hat] at hadv
      cases hadv
      obtain ⟨hact, -⟩ := atChoice_spec hat
      rw [core_atChoice hat]
      exact ⟨.keeps ht, congrArg (Option.map Prod.fst) hact⟩
    | none =>
      rw [hat] at hadv
      cases hadv
      refine ⟨Follows.resume ?_, trivial⟩
      rw [(tryToRequestPiece_keeps hat r).2]
      exact .keeps ht
  | choosing h =>
    cases hadv
    exact ⟨.keeps hc.tidy, draws_mismatched hcfg hc.tidy hc.draws⟩
  | looking h rest ids =>
    obtain ⟨hnone, hlt, hfree⟩ := hc.draws
    cases rest with
    | cons i rest =>
      cases hadv
      refine ⟨.keeps hc.tidy, hnone, fun j hj => hlt j (List.mem_cons_of_mem _ hj), fun j hj => ?_⟩
      refine hfree j ?_
      rw [Nat.mod_eq_of_lt (hlt i List.mem_cons_self)] at hj
      split_ifs at hj <;> simp at hj ⊢ <;> tauto
    | nil =>
      dsimp only [advance] at hadv
      cases hget : ids[r % ids.length]? with
      | none =>
        rw [hget] at hadv
        cases hadv
        exact ⟨Follows.resume (.keeps hc.tidy), trivial⟩
      | some i =>
        rw [hget] at hadv
        cases hadv
        obtain ⟨hsub, hnew⟩ := horderly.marking i hget
        refine ⟨Follows.resume ?_, trivial⟩
        rw [core_afterChoice]
        exact follows_claims hc.tidy hnone (hfree i (List.mem_of_getElem? hget)) hsub hnew
  | dropping =>
    cases hadv
    exact ⟨.keeps hc.tidy, trivial⟩
  | telling =>
    dsimp only [advance] at hadv
    cases hact : c.activePiece with
    | none => rw [hact] at hadv; cases hadv
    | some active =>
      rw [hact] at hadv
      cases hadv
      exact ⟨follows_telling hc.tidy hact, trivial⟩
  | completing =>
    cases hadv
    exact ⟨.keeps hc.tidy, trivial⟩
  | receiving index begin_ data =>
    cases hadv
    exact ⟨follows_receiving hc (horderly.cancelling index rfl), trivial⟩

end Client

/-! ### The master peer -/

/-- The marks are the ledger of the clients and the write jobs, and each job is about one piece. -/
structure Accounts (held : Fin n → Option ℕ) (ending : List ℕ) (m : Master) : Prop where
  balanced : Balanced held (m.jobs.map (·.piece.index) ++ ending) m.requestedPieces
  jobs : ∀ req ∈ m.jobs, req.piece.index = req.pieceIndex

/-- The mark of a client changes. -/
theorem Accounts.change {held : Fin n → Option ℕ} {ending : List ℕ} {m m' : Master} {p : Fin n}
    {o : Option ℕ} (h : Accounts held ending m) (hc : Change m (held p) m' o) :
    Accounts (Function.update held p o) ending m' := by
  generalize hp : held p = old at hc
  cases hc with
  | keeps => rwa [← hp, Function.update_eq_self]
  | claims i hfree => exact ⟨h.balanced.claim hp hfree, h.jobs⟩
  | releases i => exact ⟨h.balanced.release hp, h.jobs⟩
  | handsOver piece =>
    refine ⟨?_, fun req hreq => ?_⟩
    · refine (h.balanced.handOver hp).perm ?_
      rw [List.map_append, List.append_assoc, List.append_assoc]
      exact List.perm_append_comm.append_left _
    · rcases List.mem_append.mp hreq with hreq | hreq
      · exact h.jobs req hreq
      · cases List.mem_singleton.mp hreq
        rfl

/-- A write job leaves the queue. -/
theorem Accounts.work {held : Fin n → Option ℕ} {ending : List ℕ} {m m' : Master} {k : ℕ}
    {req : WriteRequest} (h : Accounts held ending m) (hreq : m.jobs[k]? = some req)
    (hreqs : m'.requestedPieces = m.requestedPieces) (hjobs : m'.jobs = m.jobs.eraseIdx k) :
    Accounts held (ending ++ [req.pieceIndex]) m' := by
  obtain ⟨hk, hget⟩ := List.getElem?_eq_some_iff.mp hreq
  have hperm : (req :: m.jobs.eraseIdx k).Perm m.jobs := by
    rw [← hget]
    exact List.getElem_cons_eraseIdx_perm hk
  refine ⟨?_, fun req' hreq' => ?_⟩
  · rw [hreqs, hjobs, ← h.jobs req (List.mem_of_getElem? hreq)]
    refine h.balanced.perm (((hperm.map (·.piece.index)).append_right ending).symm.trans ?_)
    rw [← List.append_assoc, List.map_cons, List.cons_append]
    exact (List.perm_append_singleton _ _).symm
  · rw [hjobs] at hreq'
    exact h.jobs req' (List.mem_of_mem_eraseIdx hreq')

/-- A write job unmarks its piece and is done. -/
theorem Accounts.unbind {held : Fin n → Option ℕ} {ending : List ℕ} {m : Master} {k i : ℕ}
    (h : Accounts held ending m) (hi : ending[k]? = some i) :
    Accounts held (ending.eraseIdx k) (m.unmark i) := by
  have hget : (m.jobs.map (·.piece.index) ++ ending)[(m.jobs.map (·.piece.index)).length + k]? =
      some i := by
    rw [List.getElem?_append_right (Nat.le_add_right _ _), Nat.add_sub_cancel_left, hi]
  have hfinish := h.balanced.finish hget
  rw [List.eraseIdx_append_of_length_le (Nat.le_add_right _ _), Nat.add_sub_cancel_left] at hfinish
  exact ⟨hfinish, h.jobs⟩

/-! ### Steps and runs -/

/-- The piece whose mark a client owns. -/
def owned (s : Interleaved n) (p : Fin n) : Option ℕ :=
  held (ahead (coreOf s.system p) (s.points p))

/-- What a run keeps. -/
structure Accurate (s : Interleaved n) : Prop where
  sound : ∀ p, Sound s.system.master.bitfield (coreOf s.system p) (s.points p)
  accounts : Accounts (owned s) s.ending s.system.master

/-- Something is queued behind the handler of a client. -/
inductive Behind (cfg : Config) (c c' : Core) : Prop
  | queued (h : Queued c c')
  | told (h : Told cfg c c')

theorem Sound.mono {bits bits' : Finset ℕ} {c : Core} {point : Point} (hc : Sound bits c point)
    (h : bits ⊆ bits') : Sound bits' c point := ⟨hc.order, hc.tidy.mono h, hc.draws⟩

/-- A handler that says nothing about the mark is queued behind an interrupted one. -/
theorem draws_posted {c c' : Core} {point : Point} {h : Handler} (hc : Draws c point)
    (hp : c'.piece = c.piece) (hs : c'.strand = c.strand ++ [h]) (hh : isNeutral h = true) :
    Draws c' point := by
  cases point with
  | choosing hd => exact hp.trans hc
  | looking hd rest ids =>
    obtain ⟨hnone, hlt, hfree⟩ := hc
    refine ⟨hp.trans hnone, hlt, fun i hi hmem => hfree i hi ?_⟩
    rwa [hs, mem_insert_of_neutral hh rfl, List.append_nil] at hmem
  | _ => trivial

/-- **What the socket, the timers, other clients and write jobs queue** says nothing about the mark. -/
theorem sound_behind {cfg : Config} {bits : Finset ℕ} {c c' : Core} {point : Point}
    (hcfg : Plain cfg) (hc : Sound bits c point) (h : Behind cfg c c') :
    Sound bits c' point ∧ held (ahead c' point) = held (ahead c point) := by
  have hposted : ∀ {c' : Core} {hd : Handler}, InOrderAt c' point → c'.piece = c.piece →
      c'.peerChoking = c.peerChoking → c'.isDisconnected = c.isDisconnected →
      c'.strand = c.strand ++ [hd] → isNeutral hd = true → hd ≠ .onChoked →
      Sound bits c' point ∧ held (ahead c' point) = held (ahead c point) := by
    intro c' hd ho hp hchoke hdisc hs hh hne
    obtain ⟨ht, hheld⟩ := tidy_ahead_posted hp hchoke hdisc hs hc.tidy hh hne
    exact ⟨⟨ho, ht, draws_posted hc.draws hp hs hh⟩, hheld⟩
  cases h with
  | queued h =>
    have ho := inOrderAt_queued hc.order h
    cases h with
    | message msg => exact hposted ho rfl rfl rfl rfl rfl nofun
    | timeout => exact hposted ho rfl rfl rfl rfl rfl nofun
    | keepAlive => exact hposted ho rfl rfl rfl rfl rfl nofun
    | disconnect => exact hposted ho rfl rfl rfl rfl rfl nofun
  | told h =>
    have ho := inOrderAt_told hc.order h
    cases h with
    | nothing => exact ⟨hc, rfl⟩
    | tryToRequest => exact hposted ho rfl rfl rfl rfl rfl nofun
    | cancelIfActive i hopt => exact absurd hopt (by rw [hcfg.optimal]; exact Bool.false_ne_true)

/-- No client moves. -/
theorem Accurate.behind {cfg : Config} {s s' : Interleaved n} (hcfg : Plain cfg) (hs : Accurate s)
    (hc : ∀ q, Behind cfg (coreOf s.system q) (coreOf s'.system q)) (hpoints : s'.points = s.points)
    (hbits : s.system.master.bitfield ⊆ s'.system.master.bitfield)
    (haccounts : Accounts (owned s) s'.ending s'.system.master) : Accurate s' := by
  have hclient := fun q => sound_behind hcfg (hs.sound q) (hc q)
  have howned : owned s' = owned s := funext fun q => by
    unfold owned
    rw [hpoints]
    exact (hclient q).2
  refine ⟨fun q => ?_, howned.symm ▸ haccounts⟩
  rw [hpoints]
  exact (hclient q).1.mono hbits

theorem accurate_queued {cfg : Config} {s s' : Interleaved n} {e : Event n} (hcfg : Plain cfg)
    (hs : Accurate s) (he : isQueued e = true)
    (h : (step cfg s.system e).map (fun t => { s with system := t }) = some s') : Accurate s' := by
  obtain ⟨t, hstep, rfl⟩ := Option.map_eq_some_iff.mp h
  cases step_moves hstep with
  | queues p hp hothers hmaster =>
    refine hs.behind hcfg (fun q => ?_) rfl (le_of_eq (congrArg Master.bitfield hmaster.symm)) ?_
    · by_cases hq : q = p
      · subst hq
        exact .queued hp
      · rw [show coreOf t q = coreOf s.system q from hothers q hq]
        exact .told .nothing
    · rw [show t.master = s.system.master from hmaster]
      exact hs.accounts
  | _ => cases he

/-- A client goes on. -/
theorem accurate_goOn {cfg : Config} {s s' : Interleaved n} {p : Fin n} {r : ℕ} (hcfg : Plain cfg)
    (hs : Accurate s) (horderly : Orderly cfg s (.next p r)) (h : goOn cfg p r s = some s') :
    Accurate s' := by
  obtain ⟨⟨m, c, point⟩, hadv, rfl⟩ := Option.map_eq_some_iff.mp h
  have horder := inOrderAt_advance (hs.sound p).order hadv
  obtain ⟨⟨htidy, hchange⟩, hdraws⟩ := follows_advance hcfg (hs.sound p) horderly hadv
  have hself : coreOf (moved s p m c point).system p = core c := coreOf_set_self s.system p c
  have hothers : ∀ q, q ≠ p → coreOf (moved s p m c point).system q = coreOf s.system q :=
    fun q hq => coreOf_set_of_ne s.system c hq
  have hpoint : (moved s p m c point).points p = point := Function.update_self ..
  have hpoints : ∀ q, q ≠ p → (moved s p m c point).points q = s.points q :=
    fun q hq => Function.update_of_ne hq _ _
  have hbits : m.bitfield = s.system.master.bitfield := hchange.bitfield
  have hmoved : Accurate (moved s p m c point) := by
    refine ⟨fun q => ?_, ?_⟩
    · change Sound m.bitfield _ _
      rw [hbits]
      by_cases hq : q = p
      · subst hq
        rw [hself, hpoint]
        exact ⟨horder, htidy, hdraws⟩
      · rw [hothers q hq, hpoints q hq]
        exact hs.sound q
    · have howned : owned (moved s p m c point) =
          Function.update (owned s) p (held (ahead (core c) point)) := by
        refine Function.eq_update_iff.mpr ⟨?_, fun q hq => ?_⟩
        · rw [owned, hself, hpoint]
        · rw [owned, hothers q hq, hpoints q hq]
          rfl
      rw [howned]
      exact hs.accounts.change hchange
  dsimp only
  split_ifs
  · refine hmoved.behind hcfg (fun q => .told ?_) rfl (Finset.Subset.refl _) hmoved.accounts
    change Told cfg (core _) (core (if q = p then _ else _))
    split_ifs
    · exact .nothing
    · rw [core_postIfSubscribed]
      exact told_postIfSubscribed .tryToRequest
  · exact hmoved

/-- **A step keeps the accounts.** -/
theorem accurate_step {cfg : Config} {s s' : Interleaved n} {a : Action n} (hcfg : Plain cfg)
    (hs : Accurate s) (horderly : Orderly cfg s a) (h : interleavedStep cfg s a = some s') :
    Accurate s' := by
  cases a with
  | arrive p msg => exact accurate_queued (e := .arrive p msg) hcfg hs rfl h
  | expire p => exact accurate_queued (e := .expire p) hcfg hs rfl h
  | keepAlive p => exact accurate_queued (e := .keepAlive p) hcfg hs rfl h
  | fail p => exact accurate_queued (e := .fail p) hcfg hs rfl h
  | next p r => exact accurate_goOn hcfg hs horderly h
  | work k sorted =>
    dsimp only [interleavedStep] at h
    cases hget : s.system.master.jobs[k]? with
    | none => rw [hget] at h; cases h
    | some req =>
      rw [hget] at h
      dsimp only at h
      split_ifs at h
      obtain ⟨t, hwrite, rfl⟩ := Option.map_eq_some_iff.mp h
      obtain ⟨hreq, hjobs, hbits, htold⟩ := checkAndWrite_spec hwrite
      exact hs.behind hcfg (fun q => .told (htold q)) rfl hbits (hs.accounts.work hget hreq hjobs)
  | unbind k =>
    dsimp only [interleavedStep] at h
    cases hget : s.ending[k]? with
    | none => rw [hget] at h; cases h
    | some i =>
      rw [hget] at h
      cases h
      exact hs.behind hcfg (fun q => .told .nothing) rfl (Finset.Subset.refl _)
        (hs.accounts.unbind hget)

theorem accurate_started (cfg : Config) (disk : Disk) (isCompleted : Bool) :
    Accurate (atRest (started n cfg disk isCompleted)) := by
  refine ⟨fun p => ⟨?_, ?_, trivial⟩, ⟨balanced_empty, fun req hreq => ?_⟩⟩
  · refine inOrderAt_of_inOrder (.of (l := [.read]) rfl rfl .read fun hmem => ?_) rfl nofun
    cases List.mem_singleton.mp hmem
  · refine .of_none rfl (fun hmem => ?_) (fun i hmem => ?_) fun i hmem => ?_
    · cases List.mem_singleton.mp hmem
    · cases List.mem_singleton.mp hmem
    · cases List.mem_singleton.mp hmem
  · cases hreq

/-- Where no handler is under way and no posted one is pending, a client owns the mark of its active
piece if it is subscribed, and none if it is not. -/
theorem owned_eq_some_iff {s : Interleaved n} (hs : Accurate s) (hq : Quiescent s) {p : Fin n}
    {i : ℕ} : owned s p = some i ↔
      (s.system.clients p).isDisconnected = false ∧ (s.system.clients p).isActive i = true := by
  obtain ⟨hidle, hstrand⟩ := hq p
  have hsound := hs.sound p
  rw [hidle] at hsound
  have htidy : Tidy s.system.master.bitfield (coreOf s.system p) := hsound.tidy
  have howned : owned s p = held (coreOf s.system p) := by rw [owned, hidle]; rfl
  have hnot : ∀ h, isPosted h = true → h ∉ (coreOf s.system p).strand := fun h hh hmem => by
    rw [hstrand h hmem] at hh
    cases hh
  have hown : ∀ piece, (coreOf s.system p).piece = some piece →
      held (coreOf s.system p) = some piece.index := fun piece hpiece => by
    refine held_of_not_given hpiece ?_
    rintro (h | h)
    · exact hnot _ rfl h
    · exact hnot _ rfl h
  rw [howned, isActive_eq_true_iff]
  constructor
  · intro h
    refine ⟨?_, ?_⟩
    · by_contra hd
      have hd : (s.system.clients p).isDisconnected = true := by simpa using hd
      rcases htidy.gone hd with h' | h' | h' | h'
      · rw [h] at h'
        cases h'
      · exact hnot _ rfl h'
      · exact hnot _ rfl h'
      · exact hnot .cancelOperation rfl (h'.subset (by simp))
    · cases hpiece : (coreOf s.system p).piece with
      | none =>
        rw [held_of_none hpiece] at h
        cases h
      | some piece =>
        rw [hown piece hpiece] at h
        exact ⟨piece, hpiece, Option.some.inj h⟩
  · rintro ⟨-, piece, hpiece, rfl⟩
    exact hown piece hpiece

/-- **`requested_pieces_` tells the truth** wherever no handler is under way and no posted one is
pending, in every run of the default strategy whose steps do not lose a mark, with the handlers and the
write jobs interleaved access by access. The torrent has no more pieces than a 32-bit number counts. -/
theorem truthful_run {cfg : Config} (hcfg : cfg.optimal = false) (htotal : cfg.total ≤ 2 ^ 32)
    {disk : Disk} {isCompleted : Bool} {actions : List (Action n)} {s : Interleaved n}
    (horderly : Along (interleavedStep cfg) (Orderly cfg)
      (atRest (started n cfg disk isCompleted)) actions)
    (hrun : run (interleavedStep cfg) (atRest (started n cfg disk isCompleted)) actions = some s)
    (hq : Quiescent s) : Truthful s := by
  have hs := invariant_of_run Accurate (Orderly cfg)
    (fun _ _ _ hi he hst => accurate_step ⟨hcfg, htotal⟩ hi he hst)
    (accurate_started cfg disk isCompleted) horderly hrun
  intro i
  rw [hs.accounts.balanced.marked i]
  simp only [owned_eq_some_iff hs hq, List.mem_append, List.mem_map]


/-- A client chooses piece 0 while another one looks for a piece, which then chooses piece 1. -/
def looksTogether (p q : Fin n) : List (Action n) :=
  (looksForPiece q).take 9 ++ looksForPiece p ++
    [.next p 0, .next q 0, .next q 0, .next q 0, .next q 0, .next p 0]

/-- Piece 1 arrives, and the client of piece 0 is choked before the write job is done. -/
def completesAndChokes (p q : Fin n) : List (Action n) :=
  [.arrive q (.piece 1 0 [3]), .next q 0, .next q 0, .next q 0, .arrive p .choke, .next p 0,
    .next p 0, .work 0 [⟨[3], 0⟩], .next q 0, .next p 0, .next p 0]

/-- A client chooses the piece that has been given back, and the write job ends. -/
def choosesAgain (q : Fin n) : List (Action n) :=
  [.next q 0, .next q 0, .next q 0, .next q 0, .next q 0, .next q 0, .unbind 0]

/-- Two clients choose a piece each, one of them is done with it and takes over that of the other. -/
theorem truthful_run_takesOver :
    ∃ s, run (interleavedStep threeBytes) (atRest (started 2 threeBytes threeBytesDisk false))
        (looksTogether 0 1 ++ completesAndChokes 0 1 ++ choosesAgain 1) = some s ∧
      s.system.master.requestedPieces = {0} ∧ s.system.master.bitfield = {1} ∧ Truthful s := by
  have hrun : run (interleavedStep threeBytes) (atRest (started 2 threeBytes threeBytesDisk false))
    (looksTogether 0 1 ++ completesAndChokes 0 1 ++ choosesAgain 1) = some _ := rfl
  refine ⟨_, rfl, by decide, by decide, truthful_run rfl (by decide) (by decide) hrun ?_⟩
  unfold Quiescent
  decide

/-- The connection of a client that has chosen piece 0 is lost: `Disconnect` does not give it back. -/
theorem not_truthful_disconnect :
    ∃ s, run (interleavedStep threeBytes) (atRest (started 1 threeBytes threeBytesDisk false))
        (looksForPiece 0 ++ [.next 0 0, .next 0 0, .fail 0, .next 0 0, .next 0 0]) = some s ∧
      Quiescent s ∧ ¬Truthful s := by
  refine ⟨_, rfl, by unfold Quiescent; decide, fun h => ?_⟩
  rcases (h 0).mp (by decide) with ⟨p, hd, -⟩ | ⟨req, hreq, -⟩ | hending
  · cases Subsingleton.elim p 0
    exact absurd hd (by decide)
  · cases hreq
  · cases hending

end CppTorrent.Swarm.RequestedPieces
