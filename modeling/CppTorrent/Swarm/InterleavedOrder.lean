import CppTorrent.Swarm.Interleaving
import CppTorrent.Swarm.ReadOrder

/-! # The order of a strand between two accesses

The read loop keeps its strands in order (`Swarm.ReadOrder`), also where a handler is interrupted. While
a message is handled nothing of the loop is queued, since the next read is posted at the end of the
handler; and behind a block that completes its piece there is at most a read. -/

namespace CppTorrent.Swarm.InterleavedOrder

open CppTorrent.Files.Blocks CppTorrent.Swarm.Model CppTorrent.Swarm.Steps CppTorrent.Swarm.Calls
open CppTorrent.Swarm.Interleaving CppTorrent.Swarm.ReadOrder

/-- Whether a handler is the callback of a read. -/
def isMessage : Handler → Bool
  | .message _ => true
  | _ => false

/-- Whether a client is in the middle of `handle_response`. -/
def inMessage : Point → Bool
  | .calling h | .choosing h | .looking h _ _ => isMessage h
  | .receiving _ _ _ => true
  | _ => false

/-- The read loop waits for the handler under way. -/
def Waits (c : Core) : Prop := loopOf c.strand = [] ∧ c.reading = false

/-- The strand of a client is in order, and the read loop waits for the handler under way. -/
structure InOrderAt (c : Core) (point : Point) : Prop where
  order : InOrder c
  message : inMessage point = true → Waits c
  completing : point = .completing →
    (loopOf c.strand = [] ∨ loopOf c.strand = [.read]) ∧ c.reading = false

/-- The client is in no handler of the read loop. -/
theorem inOrderAt_of_inOrder {c : Core} {point : Point} (hc : InOrder c)
    (hmessage : inMessage point = false) (hpoint : point ≠ .completing) : InOrderAt c point := by
  refine ⟨hc, fun h => ?_, fun h => absurd h hpoint⟩
  rw [hmessage] at h
  cases h

theorem Waits.inOrder {c : Core} (hc : Waits c) : InOrder c := (inOrder_of_loopOf_nil hc.1 hc.2).1

theorem Waits.inOrderAt {c : Core} {point : Point} (hc : Waits c) : InOrderAt c point :=
  ⟨hc.inOrder, fun _ => hc, fun _ => ⟨.inl hc.1, hc.2⟩⟩

/-- A handler that is not of the read loop is queued. -/
theorem InOrderAt.post {c : Core} {point : Point} {h : Handler} (hc : InOrderAt c point)
    (hh : isLoop h = false) : InOrderAt (c.post h) point := by
  have hloop : loopOf (c.post h).strand = loopOf c.strand := loopOf_append_of_not c.strand hh
  refine ⟨hc.order.post hh, fun hp => ?_, fun hp => ?_⟩
  · obtain ⟨hl, hr⟩ := hc.message hp
    exact ⟨hloop.trans hl, hr⟩
  · rw [hloop]
    exact hc.completing hp

/-- What the socket and the timers queue. -/
theorem inOrderAt_queued {c c' : Core} {point : Point} (hc : InOrderAt c point) (h : Queued c c') :
    InOrderAt c' point := by
  cases h with
  | message msg hread =>
    refine ⟨inOrder_queued hc.order (.message msg hread), fun hp => ?_, fun hp => ?_⟩
    · have hr := (hc.message hp).2
      rw [hread] at hr
      cases hr
    · have hr := (hc.completing hp).2
      rw [hread] at hr
      cases hr
  | timeout => exact hc.post rfl
  | keepAlive => exact hc.post rfl
  | disconnect => exact hc.post rfl

/-- What other clients and write jobs queue. -/
theorem inOrderAt_told {cfg : Config} {c c' : Core} {point : Point} (hc : InOrderAt c point)
    (h : Told cfg c c') : InOrderAt c' point := by
  cases h with
  | nothing => exact hc
  | tryToRequest => exact hc.post rfl
  | cancelIfActive i => exact hc.post rfl

/-! ### A step of a client -/

/-- The end of a handler that has called `TryToRequestPiece`. -/
theorem inOrder_resume {h : Handler} {c : Client} (hc : InOrder (core c))
    (hmessage : isMessage h = true → Waits (core c)) : InOrder (core (resume h c)) := by
  cases h with
  | message msg =>
    obtain ⟨hl, hr⟩ := hmessage rfl
    rw [resume, core_doReadHeader]
    exact (inOrder_of_loopOf_nil hl hr).2
  | _ => exact hc

/-- A handler calls `TryToRequestPiece`. -/
theorem inOrderAt_calls {cfg : Config} {m : Master} {c c' : Client} {h : Handler}
    {rest : List Handler} (hc : InOrder (core c)) (hstrand : c.strand = h :: rest)
    (hcall : callOf cfg m { c with strand := rest } h = some c') :
    InOrderAt (core c') (.calling h) := by
  have hcalled := called_callOf hcall
  have hwaits : ∀ msg, h = .message msg → Waits (core c') := by
    rintro msg rfl
    obtain ⟨hl, hr⟩ := loopOf_rest_of_message hc hstrand
    exact ⟨by rw [hcalled.strand]; exact hl, hcalled.reading.trans hr⟩
  cases h with
  | message msg => exact (hwaits msg rfl).inOrderAt
  | clearAndTry =>
    cases hcall
    rcases loopOf_rest_of_clearAndTry hc hstrand with hl | ⟨msg, hl, hr⟩
    · refine inOrderAt_of_inOrder (.of hl rfl (.nothing _) fun hmem => ?_) rfl nofun
      exact absurd hmem (not_mem_of_loopOf hl rfl (by simp))
    · refine inOrderAt_of_inOrder (.of hl hr (.message msg) fun hmem => ?_) rfl nofun
      exact absurd hmem (not_mem_of_loopOf hl rfl (by simp))
  | tryToRequest =>
    cases hcall
    exact inOrderAt_of_inOrder (hc.tail hstrand rfl) rfl nofun
  | keepAlive =>
    dsimp only [callOf] at hcall
    split_ifs at hcall
    cases hcall
    rw [core_send]
    exact inOrderAt_of_inOrder (hc.tail hstrand rfl) rfl nofun
  | _ => cases hcall

/-- A handler that is not over after its first access. -/
theorem inOrderAt_firstAccess {cfg : Config} {m m' : Master} {c c' : Client} {point' : Point}
    {h : Handler} {rest : List Handler} (hc : InOrder (core c)) (hstrand : c.strand = h :: rest)
    (hfirst : FirstAccess cfg m { c with strand := rest } h m' c' point') :
    InOrderAt (core c') point' := by
  cases hfirst with
  | chokes piece offset hact =>
    have hrest : .onChoked ∈ rest → c.peerChoking = true := fun hmem =>
      hc.choked (List.mem_of_mem_tail (by rw [show (core c).strand = _ from hstrand]; exact hmem))
    obtain ⟨hl | hl, hr⟩ := loopOf_rest_of_choke_or_block hc hstrand (.inl rfl)
    · exact inOrderAt_of_inOrder (.of hl rfl (.nothing _) hrest) rfl nofun
    · exact inOrderAt_of_inOrder (.of hl hr .read hrest) rfl nofun
  | timesOut piece offset hact => exact inOrderAt_of_inOrder (hc.tail hstrand rfl) rfl nofun
  | completes index begin_ data piece offset hact hslot hlast =>
    obtain ⟨hl, hr⟩ :=
      loopOf_rest_of_choke_or_block hc hstrand (.inr ⟨index, begin_, data, rfl⟩)
    refine ⟨?_, nofun, fun _ => ⟨hl, hr⟩⟩
    rcases hl with hl | hl
    · exact .of hl rfl (.nothing _) fun hmem =>
        absurd hmem (not_mem_of_loopOf hl rfl (by simp))
    · exact .of hl hr .read fun hmem => absurd hmem (not_mem_of_loopOf hl rfl (by simp))
  | receives index begin_ data hlt hlen hreq =>
    have hwaits := loopOf_rest_of_message (c := core c) hc hstrand
    exact Waits.inOrderAt hwaits
  | calls hcall => exact inOrderAt_calls hc hstrand hcall

/-- **A handler starts.** -/
theorem inOrderAt_start {cfg : Config} {m m' : Master} {c c' : Client} {point' : Point}
    {h : Handler} {rest : List Handler} (hc : InOrder (core c)) (hstrand : c.strand = h :: rest)
    (hstart : start cfg m { c with strand := rest } h = some (m', c', point')) :
    InOrderAt (core c') point' := by
  unfold start at hstart
  cases hfirst : firstAccess cfg m { c with strand := rest } h with
  | none =>
    rw [hfirst] at hstart
    obtain ⟨⟨m1, c1⟩, hex, heq⟩ := Option.map_eq_some_iff.mp hstart
    cases heq
    exact inOrderAt_of_inOrder (inOrder_act hc hstrand (act_execute hex)) rfl nofun
  | some res =>
    rw [hfirst] at hstart
    cases hstart
    exact inOrderAt_firstAccess hc hstrand (firstAccess_spec hfirst)

/-- `OnPieceBlock` posts its handler, and the next read is posted behind it. -/
theorem inOrder_received {c : Core} {h : Handler} (hc : Waits c)
    (hh : isLoop h = false ∨ ∃ index begin_ data, h = .block index begin_ data) :
    InOrder ((c.post h).postIfSubscribed .read) := by
  rcases hh with hh | ⟨index, begin_, data, rfl⟩
  · exact (inOrder_of_loopOf_nil (c := c.post h)
      ((loopOf_append_of_not c.strand hh).trans hc.1) hc.2).2
  · have hl : loopOf (c.post (.block index begin_ data)).strand = [.block index begin_ data] := by
      rw [Core.post, loopOf_append c.strand rfl, hc.1]
      rfl
    have hpost : InOrder (c.post (.block index begin_ data)) :=
      .of hl hc.2 (.block index begin_ data) fun hmem =>
        absurd hmem (not_mem_of_loopOf hl rfl (by simp))
    refine hpost.postRead ?_
    rw [hl, show (c.post (.block index begin_ data)).reading = false from hc.2]
    exact .blockRead index begin_ data

/-- **A step of a client keeps its strand in order.** -/
theorem inOrderAt_advance {cfg : Config} {r : ℕ} {m m' : Master} {c c' : Client}
    {point point' : Point} (hc : InOrderAt (core c) point)
    (hadv : advance cfg r m c point = some (m', c', point')) : InOrderAt (core c') point' := by
  cases point with
  | idle =>
    dsimp only [advance] at hadv
    cases hstrand : c.strand with
    | nil => rw [hstrand] at hadv; cases hadv
    | cons h rest =>
      rw [hstrand] at hadv
      exact inOrderAt_start hc.order hstrand hadv
  | calling h =>
    dsimp only [advance] at hadv
    cases hat : atChoice cfg m c with
    | some c1 =>
      rw [hat] at hadv
      cases hadv
      rw [core_atChoice hat]
      exact ⟨hc.order, hc.message, nofun⟩
    | none =>
      rw [hat] at hadv
      cases hadv
      have hcore := (tryToRequestPiece_keeps hat r).2
      refine inOrderAt_of_inOrder (inOrder_resume ?_ ?_) rfl nofun
      · rw [hcore]
        exact hc.order
      · rw [hcore]
        exact hc.message
  | choosing h =>
    cases hadv
    exact ⟨hc.order, hc.message, nofun⟩
  | looking h rest ids =>
    cases rest with
    | cons i rest =>
      cases hadv
      exact ⟨hc.order, hc.message, nofun⟩
    | nil =>
      dsimp only [advance] at hadv
      cases hget : ids[r % ids.length]? with
      | none =>
        rw [hget] at hadv
        cases hadv
        exact inOrderAt_of_inOrder (inOrder_resume hc.order hc.message) rfl nofun
      | some i =>
        rw [hget] at hadv
        cases hadv
        refine inOrderAt_of_inOrder (inOrder_resume ?_ ?_) rfl nofun
        · rw [core_afterChoice]
          exact ⟨hc.order.loop, hc.order.choked⟩
        · rw [core_afterChoice]
          exact hc.message
  | dropping =>
    cases hadv
    exact inOrderAt_of_inOrder ⟨hc.order.loop, hc.order.choked⟩ rfl nofun
  | telling =>
    dsimp only [advance] at hadv
    cases hact : c.activePiece with
    | none => rw [hact] at hadv; cases hadv
    | some active =>
      rw [hact] at hadv
      cases hadv
      have htold : InOrder (core (c.postIfSubscribed .tryToRequest)) := by
        rw [core_postIfSubscribed]
        exact hc.order.postIfSubscribed rfl
      split_ifs
      · exact inOrderAt_of_inOrder htold rfl nofun
      · exact inOrderAt_of_inOrder (htold.post rfl) rfl nofun
  | completing =>
    cases hadv
    obtain ⟨hl, hr⟩ := hc.completing rfl
    have hmem : .onChoked ∈ (core (c.post .clearAndTry)).strand →
        (core (c.post .clearAndTry)).peerChoking = true := fun hmem =>
      hc.order.choked (by simpa [Core.post] using hmem)
    have happ := loopOf_append (core c).strand (h := .clearAndTry) rfl
    rcases hl with hl | hl
    · rw [hl] at happ
      exact inOrderAt_of_inOrder (.of happ rfl (.clearAndTry _) hmem) rfl nofun
    · rw [hl] at happ
      exact inOrderAt_of_inOrder (.of happ hr .readClearAndTry hmem) rfl nofun
  | receiving index begin_ data =>
    cases hadv
    have hwaits := hc.message rfl
    refine inOrderAt_of_inOrder ?_ rfl nofun
    rw [core_doReadHeader]
    split_ifs
    · exact inOrder_received hwaits (.inl rfl)
    · exact inOrder_received (c := core c) hwaits (.inr ⟨index, begin_, data, rfl⟩)

end CppTorrent.Swarm.InterleavedOrder
