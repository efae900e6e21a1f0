import CppTorrent.Swarm.Interleaving

/-! # How a client holds its piece

A subscribed client that has an active piece has it marked, or is about to give it up: the handler that
resets the active piece is queued, or will be at the next step of the client (`Holds`). A handler with
one access to the master peer marks and unmarks nothing and chooses nothing (`calm_execute`). -/

namespace CppTorrent.Swarm.Holding

open CppTorrent.Files.Blocks CppTorrent.Swarm.Model CppTorrent.Swarm.Steps CppTorrent.Swarm.Calls
open CppTorrent.Swarm.Interleaving

/-- The index of the active piece. -/
def activeIndex (c : Core) : Option ℕ := c.piece.map Piece.index

/-- Where a client is about to give up its active piece. -/
def leaves : Point → Bool
  | .dropping | .telling | .completing => true
  | _ => false

/-- The handlers that give up piece `i`. -/
def drops (i : ℕ) : Handler → Bool
  | .cancelPiece j => j = i
  | .clearAndTry | .onChoked => true
  | _ => false

/-- The client is about to give up piece `i`: it is in the middle of that, or the handler that does so
is queued. -/
def Leaving (c : Core) (point : Point) (i : ℕ) : Prop :=
  leaves point = true ∨ ∃ h ∈ c.strand, drops i h = true

/-- Whether a client is in `ChoosePiece`. -/
def inChoice : Point → Bool
  | .choosing _ | .looking _ _ _ => true
  | _ => false

/-- The active piece of a subscribed client is marked, or the client is about to give it up; a client
with an active piece that is choked has `OnChoked` to come; a client in `ChoosePiece` has no active
piece and is not choked. -/
structure Holds (requested : Finset ℕ) (c : Core) (point : Point) : Prop where
  marked : c.isDisconnected = false → ∀ i, activeIndex c = some i →
    i ∈ requested ∨ Leaving c point i
  choked : c.piece ≠ none → c.peerChoking = true → .onChoked ∈ c.strand ∨ point = .dropping
  choosing : inChoice point = true → c.piece = none ∧ c.peerChoking = false

theorem Leaving.mono {c c' : Core} {point : Point} {i : ℕ} (hl : Leaving c point i)
    (hstrand : ∀ h ∈ c.strand, h ∈ c'.strand) : Leaving c' point i := by
  rcases hl with hp | ⟨h, hmem, hdrops⟩
  · exact .inl hp
  · exact .inr ⟨h, hstrand h hmem, hdrops⟩

/-- Handlers are queued, and the rest is left alone. -/
structure Posted (c c' : Core) : Prop where
  piece : c'.piece = c.piece
  choking : c'.peerChoking = c.peerChoking
  subscribed : c'.isDisconnected = c.isDisconnected
  strand : ∀ h ∈ c.strand, h ∈ c'.strand

theorem Posted.refl (c : Core) : Posted c c := ⟨rfl, rfl, rfl, fun _ hmem => hmem⟩

theorem Posted.post {c c' : Core} (hc : Posted c c') (h : Handler) : Posted c (c'.post h) :=
  ⟨hc.piece, hc.choking, hc.subscribed, fun hd hmem => List.mem_append_left _ (hc.strand hd hmem)⟩

theorem Posted.postIfSubscribed {c c' : Core} (hc : Posted c c') (h : Handler) :
    Posted c (c'.postIfSubscribed h) := by
  unfold Core.postIfSubscribed
  split_ifs
  · exact hc
  · exact hc.post h

theorem Posted.activeIndex {c c' : Core} (hc : Posted c c') : activeIndex c' = activeIndex c := by
  unfold Holding.activeIndex
  rw [hc.piece]

/-- Handlers are queued, and pieces are unmarked that the client is about to give up. -/
theorem Holds.posted {requested requested' : Finset ℕ} {c c' : Core} {point : Point}
    (h : Holds requested c point) (hc : Posted c c')
    (hreq : ∀ i, c.isDisconnected = false → Holding.activeIndex c = some i → i ∈ requested →
      i ∈ requested' ∨ Leaving c point i) : Holds requested' c' point := by
  refine ⟨fun hs i hi => ?_, fun hp hpc => ?_, fun hpoint => ?_⟩
  · rw [hc.subscribed] at hs
    rw [hc.activeIndex] at hi
    rcases h.marked hs i hi with hm | hl
    · rcases hreq i hs hi hm with hm' | hl
      · exact .inl hm'
      · exact .inr (hl.mono hc.strand)
    · exact .inr (hl.mono hc.strand)
  · rw [hc.piece] at hp
    rw [hc.choking] at hpc
    rcases h.choked hp hpc with hmem | hpt
    · exact .inl (hc.strand _ hmem)
    · exact .inr hpt
  · rw [hc.piece, hc.choking]
    exact h.choosing hpoint

/-- A client without an active piece. -/
theorem holds_of_none {requested : Finset ℕ} {c : Core} {point : Point} (hpiece : c.piece = none)
    (hpoint : inChoice point = true → c.peerChoking = false) : Holds requested c point := by
  refine ⟨fun _ i hi => ?_, fun hp => absurd hpiece hp, fun h => ⟨hpiece, hpoint h⟩⟩
  rw [activeIndex, hpiece] at hi
  cases hi

/-- A handler that has left the strand was not the one to give up the piece. -/
theorem Leaving.tail {c c' : Core} {point point' : Point} {h : Handler} {rest : List Handler} {i : ℕ}
    (hl : Leaving c point i) (hpoint : leaves point = false) (hstrand : c.strand = h :: rest)
    (hrest : ∀ hd ∈ rest, hd ∈ c'.strand) (hh : drops i h = false) : Leaving c' point' i := by
  rcases hl with hp | ⟨hd, hmem, hdrops⟩
  · rw [hpoint] at hp
    cases hp
  · rw [hstrand] at hmem
    rcases List.mem_cons.mp hmem with rfl | hmem
    · rw [hh] at hdrops
      cases hdrops
    · exact .inr ⟨hd, hrest hd hmem, hdrops⟩

theorem exists_activeIndex {c : Core} (hp : c.piece ≠ none) : ∃ i, activeIndex c = some i := by
  obtain ⟨piece, hpiece⟩ := Option.ne_none_iff_exists'.mp hp
  exact ⟨piece.index, by rw [activeIndex, hpiece]; rfl⟩

theorem piece_ne_none {c : Core} {i : ℕ} (hi : activeIndex c = some i) : c.piece ≠ none := by
  intro hnone
  rw [activeIndex, hnone] at hi
  cases hi

/-- A handler other than `OnChoked` has left the strand of a client that is choked. -/
theorem Holds.onChoked_mem {requested : Finset ℕ} {c : Core} {h : Handler} {rest : List Handler}
    (hc : Holds requested c .idle) (hstrand : c.strand = h :: rest) (hh : h ≠ .onChoked)
    (hp : c.piece ≠ none) (hpc : c.peerChoking = true) : .onChoked ∈ rest := by
  rcases hc.choked hp hpc with hmem | hdrop
  · rw [hstrand] at hmem
    rcases List.mem_cons.mp hmem with heq | hmem
    · exact absurd heq.symm hh
    · exact hmem
  · cases hdrop

/-- A handler that does not give up the active piece has left the strand. -/
theorem Holds.first {requested requested' : Finset ℕ} {c c' : Core} {point : Point} {h : Handler}
    {rest : List Handler} (hc : Holds requested c .idle) (hstrand : c.strand = h :: rest)
    (hsub : c'.isDisconnected = false → c.isDisconnected = false)
    (hactive : ∀ i, activeIndex c' = some i → activeIndex c = some i ∧ drops i h = false)
    (hrest : ∀ hd ∈ rest, hd ∈ c'.strand)
    (hchoking : c'.peerChoking = true → c.peerChoking = true ∨ .onChoked ∈ c'.strand)
    (hreq : ∀ i ∈ requested, i ∈ requested') (hpoint : inChoice point = false) :
    Holds requested' c' point := by
  refine ⟨fun hs i hi => ?_, fun hp hpc => .inl ?_, fun h => ?_⟩
  · obtain ⟨hi', hh⟩ := hactive i hi
    rcases hc.marked (hsub hs) i hi' with hm | hl
    · exact .inl (hreq i hm)
    · exact .inr (hl.tail rfl hstrand hrest hh)
  · rcases hchoking hpc with hpc' | hmem
    · obtain ⟨i, hi⟩ := exists_activeIndex hp
      obtain ⟨hi', hh⟩ := hactive i hi
      have hne : h ≠ .onChoked := by
        rintro rfl
        cases hh
      exact hrest _ (hc.onChoked_mem hstrand hne (piece_ne_none hi') hpc')
    · exact hmem
  · rw [hpoint] at h
    cases h

/-! ### A handler without a second access -/

/-- What such a handler can do: it marks and unmarks nothing, chooses nothing and queues handlers. -/
structure Calm (h : Handler) (m : Master) (c : Core) (m' : Master) (c' : Core) : Prop where
  requested : m'.requestedPieces = m.requestedPieces
  subscribed : c'.isDisconnected = false → c.isDisconnected = false
  active : ∀ i, activeIndex c' = some i → activeIndex c = some i ∧ drops i h = false
  strand : ∀ hd ∈ c.strand, hd ∈ c'.strand
  choking : c'.peerChoking = true → c.peerChoking = true ∨ .onChoked ∈ c'.strand

theorem Calm.post {h hd : Handler} {m m' : Master} {c c' : Core} (hcalm : Calm h m c m' c') :
    Calm h m c m' (c'.post hd) := by
  refine ⟨hcalm.requested, hcalm.subscribed, hcalm.active, fun x hx => ?_, fun hc => ?_⟩
  · exact List.mem_append_left _ (hcalm.strand x hx)
  · rcases hcalm.choking hc with hc' | hmem
    · exact .inl hc'
    · exact .inr (List.mem_append_left _ hmem)

theorem Calm.postIfSubscribed {h hd : Handler} {m m' : Master} {c c' : Core}
    (hcalm : Calm h m c m' c') : Calm h m c m' (c'.postIfSubscribed hd) := by
  unfold Core.postIfSubscribed
  split_ifs
  · exact hcalm
  · exact hcalm.post

/-- The client is left as it is. -/
theorem Calm.keeps {h : Handler} {m : Master} {c : Core} (hh : ∀ i, drops i h = false) :
    Calm h m c m c :=
  ⟨rfl, id, fun i hi => ⟨hi, hh i⟩, fun _ hx => hx, .inl⟩

theorem Calm.disconnect {h : Handler} {m : Master} {c : Core} (hh : ∀ i, drops i h = false) :
    Calm h m c m c.disconnect := by
  unfold Core.disconnect
  split_ifs
  · exact .keeps hh
  · refine ⟨rfl, nofun, fun i hi => ⟨hi, hh i⟩, fun x hx => ?_, .inl⟩
    exact List.mem_append_left _ hx

/-- An attempt that chooses nothing. -/
theorem attempt_keeps {cfg : Config} {m m' : Master} {c c' : Core} (h : Attempt cfg m c m' c')
    (hnone : c.piece = none → c'.piece = none) : m' = m ∧ c' = c := by
  cases h with
  | keeps => exact ⟨rfl, rfl⟩
  | chooses i hpiece => cases hnone hpiece

theorem piece_of_no_call_message {cfg : Config} {r : ℕ} {m : Master} {c : Client} {msg : Message}
    (hcall : callOf cfg m c (.message msg) = none) (hnone : (core c).piece = none) :
    (core (handleResponse cfg r m c msg).2).piece = none := by
  have hdisconnect : (core (disconnect c)).piece = none := by
    rw [core_disconnect, piece_disconnect]
    exact hnone
  cases msg with
  | unchoke => cases hcall
  | interested =>
    dsimp only [callOf] at hcall
    dsimp only [handleResponse]
    split_ifs at hcall with hunchoke hchoke hchoke
    · rw [if_pos hunchoke, if_pos hchoke, core_sendUnchoke]
      exact hnone
    · rw [if_neg hunchoke, if_pos hchoke]
      exact hnone
  | notInterested =>
    dsimp only [handleResponse]
    split_ifs
    · rw [core_sendChoke]
      exact hnone
    · exact hnone
  | have_ i =>
    dsimp only [callOf] at hcall
    dsimp only [handleResponse]
    split_ifs at hcall with hno
    rcases hno with htotal | hdone
    · rw [if_pos htotal]
      exact hnone
    · by_cases htotal : cfg.total ≤ i
      · rw [if_pos htotal]
        exact hnone
      · rw [if_neg htotal, if_pos hdone]
        exact hnone
  | bitfield payload =>
    dsimp only [callOf] at hcall
    by_cases hlong : (cfg.total + 7) / 8 < payload.length
    · dsimp only [handleResponse]
      rw [if_pos hlong]
      exact hdisconnect
    · rw [if_neg hlong] at hcall
      cases hcall
  | request index begin_ length =>
    dsimp only [handleResponse]
    split_ifs
    · exact hdisconnect
    · exact hnone
  | piece index begin_ data =>
    dsimp only [handleResponse, onPieceBlock]
    split_ifs
    · exact hdisconnect
    · exact hnone
    · exact hnone
    · exact hnone
    · exact hnone
  | cancel index begin_ length =>
    dsimp only [handleResponse]
    split_ifs
    · exact hdisconnect
    · exact hnone
  | invalid => exact hdisconnect
  | _ => exact hnone

/-- A handler that does not call `TryToRequestPiece` chooses no piece. -/
theorem piece_of_no_call {cfg : Config} {r : ℕ} {m m' : Master} {c c' : Client} {h : Handler}
    (hcall : callOf cfg m c h = none) (hex : execute cfg r m c h = some (m', c'))
    (hnone : (core c).piece = none) : (core c').piece = none := by
  have hact : c.activePiece = none := Option.map_eq_none_iff.mp hnone
  cases h with
  | message msg =>
    have hres := Option.some.inj hex
    by_cases hk : msg = .keepAlive
    · subst hk
      cases hres
      exact hnone
    · rw [onMessage_of_ne hk] at hres
      obtain ⟨-, rfl⟩ := Prod.mk.inj hres
      have hread := core_postIfSubscribed .read (handleResponse cfg r m c msg).2
      change (core ((handleResponse cfg r m c msg).2.postIfSubscribed .read)).piece = none
      rw [hread, piece_postIfSubscribed]
      exact piece_of_no_call_message hcall hnone
  | block index begin_ data =>
    dsimp only [execute, storeBlock] at hex
    rw [hact] at hex
    cases hex
  | clearAndTry => cases hcall
  | tryToRequest => cases hcall
  | onChoked =>
    dsimp only [execute] at hex
    rw [hact] at hex
    cases hex
    exact hnone
  | pieceTimeout =>
    dsimp only [execute] at hex
    rw [hact] at hex
    cases hex
    exact hnone
  | cancelPiece id =>
    dsimp only [execute] at hex
    split_ifs at hex
    · cases hex
      rfl
    · cases hex
      exact hnone
  | cancelIfActive id =>
    have hidle : c.isActive id = false := by
      unfold Client.isActive
      rw [hact]
    dsimp only [execute] at hex
    rw [hidle] at hex
    cases hex
    exact hnone
  | keepAlive =>
    have hint := amInterested_of_callOf_keepAlive hcall
    dsimp only [execute] at hex
    rw [if_neg hint] at hex
    split_ifs at hex
    · cases hex
      rw [core_send]
      exact hnone
    · cases hex
      exact hnone
  | disconnect =>
    cases hex
    rw [core_disconnect, piece_disconnect]
    exact hnone
  | read => cases hex; exact hnone
  | timeoutFired => cases hex; exact hnone
  | cancelOperation => cases hex; exact hnone

theorem calm_response {cfg : Config} {m m' : Master} {c c' : Core} {rejected : Message → Bool}
    {msg : Message} (h : Response cfg m c rejected msg m' c')
    (hnone : c.piece = none → c'.piece = none) :
    Calm (.message msg) m c m' c' := by
  cases h with
  | ignores => exact .keeps fun _ => rfl
  | choke =>
    refine ⟨rfl, id, fun i hi => ⟨hi, rfl⟩, fun x hx => ?_, fun _ => .inr ?_⟩
    · exact List.mem_append_left _ hx
    · exact List.mem_append_right _ (List.mem_singleton_self _)
  | unchoke hatt =>
    obtain ⟨rfl, rfl⟩ := attempt_keeps hatt hnone
    exact ⟨rfl, id, fun i hi => ⟨hi, rfl⟩, fun _ hx => hx, nofun⟩
  | offer _ hatt =>
    obtain ⟨rfl, rfl⟩ := attempt_keeps hatt hnone
    exact .keeps fun _ => rfl
  | rejects => exact .disconnect fun _ => rfl
  | cancels => exact Calm.post (.keeps fun _ => rfl)
  | accepts => exact Calm.post (.keeps fun _ => rfl)

/-- **A handler without a second access.** -/
theorem calm_execute {cfg : Config} {r : ℕ} {m m' : Master} {c c' : Client} {h : Handler}
    (hfirst : firstAccess cfg m c h = none) (hex : execute cfg r m c h = some (m', c')) :
    Calm h m (core c) m' (core c') := by
  have hcall := callOf_of_firstAccess hfirst
  have hnone := piece_of_no_call hcall hex
  generalize hd : core c' = d at hnone ⊢
  have hact := act_execute hex
  rw [hd] at hact
  cases hact with
  | read => exact ⟨rfl, id, fun i hi => ⟨hi, rfl⟩, fun _ hx => hx, .inl⟩
  | keepAliveFrame => exact .keeps fun _ => rfl
  | message hres =>
    rw [piece_postIfSubscribed] at hnone
    exact (calm_response hres hnone).postIfSubscribed
  | idle hpiece hh =>
    refine ⟨rfl, id, fun i hi => ?_, fun _ hx => hx, .inl⟩
    rw [activeIndex, hpiece] at hi
    cases hi
  | onChoked piece hpiece =>
    have hact : c.activePiece = none := Option.map_eq_none_iff.mp hfirst
    rw [core, hact] at hpiece
    cases hpiece
  | stores piece index begin_ data hpiece hslot =>
    refine ⟨rfl, id, fun i hi => ⟨?_, rfl⟩, fun _ hx => hx, .inl⟩
    rw [activeIndex, hpiece]
    exact hi
  | completes piece index begin_ data hpiece hslot hlast =>
    obtain ⟨⟨piece', offset⟩, hact, rfl⟩ := Option.map_eq_some_iff.mp hpiece
    dsimp only [firstAccess] at hfirst
    rw [hact] at hfirst
    dsimp only at hfirst
    rw [if_pos ⟨hslot, hlast⟩] at hfirst
    cases hfirst
  | clearAndTry hatt => cases hcall
  | timeoutFired => exact Calm.post (.keeps fun _ => rfl)
  | pieceTimeout piece hpiece =>
    have hact : c.activePiece = none := Option.map_eq_none_iff.mp hfirst
    rw [core, hact] at hpiece
    cases hpiece
  | cancelPiece piece hpiece =>
    refine ⟨rfl, id, fun i hi => ?_, fun _ hx => hx, .inl⟩
    cases hi
  | notActive id hid hh =>
    refine ⟨rfl, fun hs => hs, fun i hi => ⟨hi, ?_⟩, fun _ hx => hx, .inl⟩
    obtain ⟨piece, hpiece, rfl⟩ := Option.map_eq_some_iff.mp hi
    have hne := hid piece hpiece
    rcases hh with rfl | rfl
    · exact decide_eq_false hne.symm
    · rfl
  | tryToRequest hatt => cases hcall
  | cancelIfActive piece hpiece => exact Calm.post (.keeps fun _ => rfl)
  | keepAlive hatt =>
    obtain ⟨rfl, rfl⟩ := attempt_keeps hatt hnone
    exact .keeps fun _ => rfl
  | disconnect => exact .disconnect fun _ => rfl
  | cancelOperation => exact ⟨rfl, id, fun i hi => ⟨hi, rfl⟩, fun _ hx => hx, .inl⟩

end CppTorrent.Swarm.Holding
