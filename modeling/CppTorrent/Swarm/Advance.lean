import CppTorrent.Swarm.Holding

/-! # What a step of a client keeps

A step of a client from one access to the master peer to the next keeps `Holds`; it marks at most the
piece that `ChoosePiece` has drawn, and unmarks at most the active piece, at a choke or a timeout
(`goes_advance`). -/

namespace CppTorrent.Swarm.Advance

open CppTorrent.Files.Blocks CppTorrent.Swarm.Model CppTorrent.Swarm.Steps CppTorrent.Swarm.Calls
open CppTorrent.Swarm.Interleaving CppTorrent.Swarm.Holding

/-- The piece that `ChoosePiece` marks in the next step of a client. -/
def marks (r : ℕ) : Point → Option ℕ
  | .looking _ [] ids => ids[r % ids.length]?
  | _ => none

/-- The piece that a choke or a timeout unmarks in the next step of a client. -/
def unmarks (c : Core) (point : Point) : Option ℕ :=
  match point, c.strand with
  | .idle, .onChoked :: _ => activeIndex c
  | .idle, .pieceTimeout :: _ => activeIndex c
  | _, _ => none

/-- What a step of a client keeps, and what it can mark and unmark. -/
structure Goes (r : ℕ) (m : Master) (c : Core) (point : Point) (m' : Master) (c' : Core)
    (point' : Point) : Prop where
  holds : Holds m.requestedPieces c point → Holds m'.requestedPieces c' point'
  subscribed : c'.isDisconnected = false → c.isDisconnected = false
  active : ∀ i, activeIndex c' = some i → activeIndex c = some i ∨ marks r point = some i
  requested : ∀ i ∈ m.requestedPieces, i ∈ m'.requestedPieces ∨ unmarks c point = some i

theorem activeIndex_of_active {c : Client} {piece : Piece} {offset : ℕ}
    (h : c.activePiece = some (piece, offset)) : activeIndex (core c) = some piece.index := by
  rw [activeIndex, core, h]
  rfl

theorem mem_unmark {m : Master} {c : Core} {point : Point} {i j : ℕ} (hi : i ∈ m.requestedPieces)
    (hj : unmarks c point = some j) :
    i ∈ (m.unmark j).requestedPieces ∨ unmarks c point = some i := by
  by_cases heq : i = j
  · subst heq
    exact .inr hj
  · exact .inl (Finset.mem_erase.mpr ⟨heq, hi⟩)

/-- A handler without a second access. -/
theorem goes_calm {cfg : Config} {r r' : ℕ} {m m' : Master} {c c' : Client} {h : Handler}
    {rest : List Handler} (hstrand : c.strand = h :: rest)
    (hfirst : firstAccess cfg m { c with strand := rest } h = none)
    (hex : execute cfg r' m { c with strand := rest } h = some (m', c')) :
    Goes r m (core c) .idle m' (core c') .idle := by
  have hcalm := calm_execute hfirst hex
  refine ⟨fun hc => ?_, hcalm.subscribed, fun i hi => .inl (hcalm.active i hi).1, fun i hi => .inl ?_⟩
  · exact hc.first hstrand hcalm.subscribed hcalm.active hcalm.strand hcalm.choking
      (fun i hi => hcalm.requested ▸ hi) rfl
  · rw [hcalm.requested]
    exact hi

/-- A handler that calls `TryToRequestPiece` for a client with an active piece does not give it up. -/
theorem drops_of_call {cfg : Config} {m : Master} {c c' : Client} {h : Handler} {i : ℕ}
    (hcall : callOf cfg m c h = some c') (hactive : activeIndex (core c') = some i) :
    drops i h = false := by
  cases h with
  | message msg => rfl
  | tryToRequest => rfl
  | keepAlive => rfl
  | clearAndTry => cases hcall; cases hactive
  | _ => cases hcall

/-- A handler that is not over after its first access. -/
theorem goes_firstAccess {cfg : Config} {r : ℕ} {m m' : Master} {c c' : Client} {point' : Point}
    {h : Handler} {rest : List Handler} (hstrand : c.strand = h :: rest)
    (hfirst : FirstAccess cfg m { c with strand := rest } h m' c' point') :
    Goes r m (core c) .idle m' (core c') point' := by
  cases hfirst with
  | chokes piece offset hact =>
    have hunmarks : unmarks (core c) .idle = some piece.index := by
      unfold unmarks
      rw [show (core c).strand = .onChoked :: rest from hstrand]
      exact activeIndex_of_active hact
    refine ⟨fun hc => ⟨fun _ i _ => .inr (.inl rfl), fun _ _ => .inr rfl, nofun⟩, id,
      fun i hi => .inl hi, fun i hi => ?_⟩
    exact mem_unmark hi hunmarks
  | timesOut piece offset hact =>
    have hunmarks : unmarks (core c) .idle = some piece.index := by
      unfold unmarks
      rw [show (core c).strand = .pieceTimeout :: rest from hstrand]
      exact activeIndex_of_active hact
    refine ⟨fun hc => ⟨fun _ i _ => .inr (.inl rfl), fun hp hpc => .inl ?_, nofun⟩, id,
      fun i hi => .inl hi, fun i hi => ?_⟩
    · exact hc.onChoked_mem hstrand nofun hp hpc
    · exact mem_unmark hi hunmarks
  | completes index begin_ data piece offset hact hslot hlast =>
    have hactive : activeIndex (core c) = some piece.index := activeIndex_of_active hact
    refine ⟨fun hc => ⟨fun _ i _ => .inr (.inl rfl), fun _ hpc => .inl ?_, nofun⟩, id,
      fun i hi => .inl (hactive.trans hi), fun i hi => .inl hi⟩
    exact hc.onChoked_mem hstrand nofun (piece_ne_none hactive) hpc
  | receives index begin_ data hlt hlen hreq =>
    refine ⟨fun hc => ?_, id, fun i hi => .inl hi, fun i hi => .inl hi⟩
    exact hc.first hstrand id (fun i hi => ⟨hi, rfl⟩) (fun _ hx => hx) .inl (fun _ hi => hi) rfl
  | calls hcall =>
    have hcalled := called_callOf hcall
    have hsub : (core c').isDisconnected = false → (core c).isDisconnected = false := by
      intro hs
      rw [hcalled.subscribed] at hs
      exact hs
    have hactive : ∀ i, activeIndex (core c') = some i →
        activeIndex (core c) = some i ∧ drops i h = false := by
      intro i hi
      rcases hcalled.piece with hp | ⟨rfl, hp⟩
      · refine ⟨?_, drops_of_call hcall hi⟩
        rw [activeIndex, hp] at hi
        exact hi
      · rw [activeIndex, hp] at hi
        cases hi
    refine ⟨fun hc => ?_, hsub, fun i hi => .inl (hactive i hi).1, fun i hi => .inl hi⟩
    refine hc.first hstrand hsub hactive (fun x hx => ?_) (fun hpc => .inl (hcalled.choking hpc))
      (fun _ hi => hi) rfl
    rw [hcalled.strand]
    exact hx

/-- **A handler starts.** -/
theorem goes_start {cfg : Config} {r : ℕ} {m m' : Master} {c c' : Client} {point' : Point}
    {h : Handler} {rest : List Handler} (hstrand : c.strand = h :: rest)
    (hstart : start cfg m { c with strand := rest } h = some (m', c', point')) :
    Goes r m (core c) .idle m' (core c') point' := by
  unfold start at hstart
  cases hfirst : firstAccess cfg m { c with strand := rest } h with
  | none =>
    rw [hfirst] at hstart
    obtain ⟨⟨m1, c1⟩, hex, heq⟩ := Option.map_eq_some_iff.mp hstart
    cases heq
    exact goes_calm hstrand hfirst hex
  | some res =>
    rw [hfirst] at hstart
    cases hstart
    exact goes_firstAccess hstrand (firstAccess_spec hfirst)

/-- Handlers are queued at the end of a handler. -/
theorem goes_ends {r : ℕ} {m : Master} {c c' : Core} {point : Point} (hc : Posted c c')
    (hpoint : point ≠ .dropping)
    (hleaving : Holds m.requestedPieces c point → leaves point = true →
      ∀ i, activeIndex c = some i → Leaving c' .idle i) : Goes r m c point m c' .idle := by
  refine ⟨fun h => ⟨fun hs i hi => ?_, fun hp hpc => .inl ?_, nofun⟩, fun hs => ?_, fun i hi => .inl ?_,
    fun i hi => .inl hi⟩
  · rw [hc.subscribed] at hs
    rw [hc.activeIndex] at hi
    rcases h.marked hs i hi with hm | hp | ⟨hd, hmem, hdrops⟩
    · exact .inl hm
    · exact .inr (hleaving h hp i hi)
    · exact .inr (.inr ⟨hd, hc.strand hd hmem, hdrops⟩)
  · rw [hc.piece] at hp
    rw [hc.choking] at hpc
    rcases h.choked hp hpc with hmem | hdrop
    · exact hc.strand _ hmem
    · exact absurd hdrop hpoint
  · rw [← hc.subscribed]
    exact hs
  · rw [← hc.activeIndex]
    exact hi

/-- A client in `ChoosePiece` goes on. -/
theorem goes_inChoice {r : ℕ} {m : Master} {c : Core} {point point' : Point}
    (hpoint : inChoice point = true) : Goes r m c point m c point' :=
  ⟨fun hc => holds_of_none (hc.choosing hpoint).1 fun _ => (hc.choosing hpoint).2, id,
    fun _ hi => .inl hi, fun _ hi => .inl hi⟩

theorem posted_resume (h : Handler) (c : Client) : Posted (core c) (core (resume h c)) := by
  cases h with
  | message msg =>
    rw [resume, core_doReadHeader]
    exact (Posted.refl _).postIfSubscribed _
  | _ => exact Posted.refl _

/-- `ChoosePiece` marks a piece, and it becomes the active piece. -/
theorem goes_chooses {cfg : Config} {r : ℕ} {m : Master} {c : Client} {h : Handler} {ids : List ℕ}
    {i : ℕ} (hget : ids[r % ids.length]? = some i) :
    Goes r m (core c) (.looking h [] ids) (m.mark i) (core (resume h (afterChoice cfg c (some i))))
      .idle := by
  have hposted := posted_resume h (afterChoice cfg c (some i))
  rw [core_afterChoice] at hposted
  have hactive : activeIndex (core (resume h (afterChoice cfg c (some i)))) = some i :=
    hposted.activeIndex
  refine ⟨fun hc => ⟨fun _ j hj => .inl ?_, fun _ hpc => ?_, nofun⟩, fun hs => ?_, fun j hj => .inr ?_,
    fun j hj => .inl (Finset.mem_insert_of_mem hj)⟩
  · rw [hactive] at hj
    cases hj
    exact Finset.mem_insert_self _ _
  · have hchoke := (hc.choosing rfl).2
    rw [hposted.choking] at hpc
    change (core c).peerChoking = true at hpc
    rw [hchoke] at hpc
    cases hpc
  · rw [hposted.subscribed] at hs
    exact hs
  · rw [hactive] at hj
    cases hj
    exact hget

/-- The timeout of a piece tells the clients and cancels the piece. -/
theorem goes_tells {r : ℕ} {m : Master} {c : Client} {piece : Piece} {offset : ℕ}
    (hact : c.activePiece = some (piece, offset)) :
    Goes r m (core c) .telling m (core (if (c.postIfSubscribed .tryToRequest).peerChoking then
      c.postIfSubscribed .tryToRequest
      else (c.postIfSubscribed .tryToRequest).post (.cancelPiece piece.index))) .idle := by
  have htold : Posted (core c) (core (c.postIfSubscribed .tryToRequest)) := by
    rw [core_postIfSubscribed]
    exact (Posted.refl _).postIfSubscribed _
  split_ifs with hchoke
  · refine goes_ends htold nofun fun hc _ i hi => .inr ?_
    have hpc : (core c).peerChoking = true := htold.choking.symm.trans hchoke
    rcases hc.choked (piece_ne_none hi) hpc with hmem | hdrop
    · exact ⟨.onChoked, htold.strand _ hmem, rfl⟩
    · cases hdrop
  · refine goes_ends (htold.post _) nofun fun hc _ i hi => .inr ?_
    refine ⟨.cancelPiece piece.index, List.mem_append_right _ (List.mem_singleton_self _), ?_⟩
    rw [activeIndex_of_active hact] at hi
    exact decide_eq_true (Option.some.inj hi)

/-- **What a step of a client does.** -/
theorem goes_advance {cfg : Config} {r : ℕ} {m m' : Master} {c c' : Client} {point point' : Point}
    (hadv : advance cfg r m c point = some (m', c', point')) :
    Goes r m (core c) point m' (core c') point' := by
  cases point with
  | idle =>
    dsimp only [advance] at hadv
    cases hstrand : c.strand with
    | nil => rw [hstrand] at hadv; cases hadv
    | cons h rest =>
      rw [hstrand] at hadv
      exact goes_start hstrand hadv
  | calling h =>
    dsimp only [advance] at hadv
    cases hat : atChoice cfg m c with
    | some c1 =>
      rw [hat] at hadv
      cases hadv
      obtain ⟨hact, -, hchoke, -⟩ := atChoice_spec hat
      have hpiece : (core c).piece = none := congrArg (Option.map Prod.fst) hact
      rw [core_atChoice hat]
      exact ⟨fun _ => holds_of_none hpiece fun _ => hchoke, id, fun _ hi => .inl hi,
        fun _ hi => .inl hi⟩
    | none =>
      rw [hat] at hadv
      cases hadv
      have hposted := posted_resume h (tryToRequestPiece cfg r m c).2
      rw [(tryToRequestPiece_keeps hat r).2] at hposted
      exact goes_ends hposted nofun nofun
  | choosing h =>
    cases hadv
    exact goes_inChoice rfl
  | looking h rest ids =>
    cases rest with
    | cons i rest =>
      cases hadv
      exact goes_inChoice rfl
    | nil =>
      dsimp only [advance] at hadv
      cases hget : ids[r % ids.length]? with
      | none =>
        rw [hget] at hadv
        cases hadv
        exact goes_ends (posted_resume h c) nofun nofun
      | some i =>
        rw [hget] at hadv
        cases hadv
        exact goes_chooses hget
  | dropping =>
    cases hadv
    refine ⟨fun _ => holds_of_none rfl nofun, id, nofun, fun i hi => .inl hi⟩
  | telling =>
    dsimp only [advance] at hadv
    cases hact : c.activePiece with
    | none => rw [hact] at hadv; cases hadv
    | some active =>
      obtain ⟨piece, offset⟩ := active
      rw [hact] at hadv
      cases hadv
      exact goes_tells hact
  | completing =>
    cases hadv
    refine goes_ends ((Posted.refl _).post .clearAndTry) nofun fun _ _ i _ => .inr ?_
    exact ⟨.clearAndTry, List.mem_append_right _ (List.mem_singleton_self _), rfl⟩
  | receiving index begin_ data =>
    cases hadv
    refine goes_ends ?_ nofun nofun
    rw [core_doReadHeader]
    split_ifs
    · exact ((Posted.refl _).post _).postIfSubscribed _
    · exact ((Posted.refl _).post _).postIfSubscribed _

end CppTorrent.Swarm.Advance
