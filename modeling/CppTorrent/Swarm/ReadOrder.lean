import CppTorrent.Swarm.Steps

/-! # The order of a strand

The read loop of a client never has two messages on the way: a read begins only after everything that
the last message has posted has been queued. So the handlers of the read loop that are on a strand at
one time are one of the lists of `Loop`. In particular a block that waits to be stored is not
preceded by another handler of the loop, and nothing of the loop waits behind a message.

`InOrder` is an invariant of every run, with either strategy. -/

namespace CppTorrent.Swarm.ReadOrder

open CppTorrent.Files.Blocks CppTorrent.Files.Storage CppTorrent.Lib.Runs
open CppTorrent.Swarm.Model CppTorrent.Swarm.Steps

/-- The handlers of the read loop. -/
def isLoop : Handler → Bool
  | .read | .message _ | .onChoked | .block _ _ _ | .clearAndTry => true
  | _ => false

/-- The handlers of the read loop that can be on a strand, and whether a read is in progress. -/
inductive Loop : List Handler → Bool → Prop
  | nothing (reading : Bool) : Loop [] reading
  | read : Loop [.read] false
  | message (msg : Message) : Loop [.message msg] false
  | onChoked : Loop [.onChoked] false
  | onChokedRead : Loop [.onChoked, .read] false
  | block (index begin_ : ℕ) (data : List UInt8) : Loop [.block index begin_ data] false
  | blockRead (index begin_ : ℕ) (data : List UInt8) :
      Loop [.block index begin_ data, .read] false
  | clearAndTry (reading : Bool) : Loop [.clearAndTry] reading
  | readClearAndTry : Loop [.read, .clearAndTry] false
  | clearAndTryMessage (msg : Message) : Loop [.clearAndTry, .message msg] false

/-- The handlers of the read loop on a strand. -/
def loopOf (strand : List Handler) : List Handler := strand.filter isLoop

/-- The strand of a client is in order. -/
structure InOrder (c : Core) : Prop where
  loop : Loop (loopOf c.strand) c.reading
  choked : .onChoked ∈ c.strand → c.peerChoking = true

theorem mem_loopOf {strand : List Handler} {h : Handler} (hh : isLoop h) :
    h ∈ strand ↔ h ∈ loopOf strand := by
  rw [loopOf, List.mem_filter, and_iff_left hh]

theorem not_mem_of_loopOf {strand l : List Handler} (hl : loopOf strand = l) {h : Handler}
    (hh : isLoop h) (hnot : h ∉ l) : h ∉ strand := by
  rw [mem_loopOf hh, hl]
  exact hnot

theorem loopOf_append (strand : List Handler) {h : Handler} (hh : isLoop h) :
    loopOf (strand ++ [h]) = loopOf strand ++ [h] := by
  simp [loopOf, hh]

theorem loopOf_append_of_not (strand : List Handler) {h : Handler} (hh : isLoop h = false) :
    loopOf (strand ++ [h]) = loopOf strand := by
  simp [loopOf, hh]

theorem loopOf_cons (rest : List Handler) {h : Handler} (hh : isLoop h) :
    loopOf (h :: rest) = h :: loopOf rest := by
  simp [loopOf, hh]

theorem loopOf_cons_of_not (rest : List Handler) {h : Handler} (hh : isLoop h = false) :
    loopOf (h :: rest) = loopOf rest := by
  simp [loopOf, hh]

theorem InOrder.of {c : Core} {l : List Handler} {b : Bool} (hl : loopOf c.strand = l)
    (hr : c.reading = b) (hloop : Loop l b)
    (hchoked : .onChoked ∈ c.strand → c.peerChoking = true) : InOrder c := by
  subst hl hr
  exact ⟨hloop, hchoked⟩

theorem InOrder.post {c : Core} {h : Handler} (hc : InOrder c) (hh : isLoop h = false) :
    InOrder (c.post h) := by
  refine .of (loopOf_append_of_not c.strand hh) rfl hc.loop fun hmem => ?_
  rcases List.mem_append.mp hmem with hmem | hmem
  · exact hc.choked hmem
  · rw [← List.mem_singleton.mp hmem] at hh
    exact absurd hh (by decide)

theorem InOrder.postIfSubscribed {c : Core} {h : Handler} (hc : InOrder c)
    (hh : isLoop h = false) : InOrder (c.postIfSubscribed h) := by
  unfold Core.postIfSubscribed
  split_ifs
  · exact hc
  · exact hc.post hh

theorem InOrder.disconnect {c : Core} (hc : InOrder c) : InOrder c.disconnect := by
  unfold Core.disconnect
  split_ifs
  · exact hc
  · have h := hc.post (h := .cancelOperation) rfl
    exact ⟨h.loop, h.choked⟩

/-- `TryToRequestPiece` changes the active piece only. -/
theorem attempt_frame {cfg : Config} {m m' : Master} {c c' : Core} (h : Attempt cfg m c m' c') :
    c' = { c with piece := c'.piece } := by
  cases h <;> rfl

theorem InOrder.attempt {cfg : Config} {m m' : Master} {c c' : Core} (hc : InOrder c)
    (h : Attempt cfg m c m' c') : InOrder c' := by
  rw [attempt_frame h]
  exact ⟨hc.loop, hc.choked⟩

/-! ### The first handler leaves the strand -/

section
variable {c : Core} {rest : List Handler}

theorem InOrder.tail {h : Handler} (hc : InOrder c) (hs : c.strand = h :: rest)
    (hh : isLoop h = false) : InOrder { c with strand := rest } := by
  have hloop := hc.loop
  rw [hs, loopOf_cons_of_not rest hh] at hloop
  exact ⟨hloop, fun hmem => hc.choked (hs ▸ List.mem_cons_of_mem h hmem)⟩

theorem InOrder.loop_cons {h : Handler} (hc : InOrder c) (hs : c.strand = h :: rest)
    (hh : isLoop h = true) : Loop (h :: loopOf rest) c.reading := by
  rw [← loopOf_cons rest hh, ← hs]
  exact hc.loop

/-- Nothing of the loop waits behind a message. -/
theorem loopOf_rest_of_message {msg : Message} (hc : InOrder c)
    (hs : c.strand = .message msg :: rest) : loopOf rest = [] ∧ c.reading = false := by
  have hloop := hc.loop_cons hs rfl
  generalize loopOf rest = l at hloop ⊢
  generalize c.reading = b at hloop ⊢
  cases hloop
  exact ⟨rfl, rfl⟩

/-- At most a read waits behind a choke or a block. -/
theorem loopOf_rest_of_choke_or_block {h : Handler} (hc : InOrder c) (hs : c.strand = h :: rest)
    (hh : h = .onChoked ∨ ∃ index begin_ data, h = .block index begin_ data) :
    (loopOf rest = [] ∨ loopOf rest = [.read]) ∧ c.reading = false := by
  have hl : isLoop h = true := by
    rcases hh with rfl | ⟨index, begin_, data, rfl⟩ <;> rfl
  have hloop := hc.loop_cons hs hl
  generalize loopOf rest = l at hloop ⊢
  generalize c.reading = b at hloop ⊢
  rcases hh with rfl | ⟨index, begin_, data, rfl⟩ <;> cases hloop <;> simp

/-- At most a message waits behind the end of a piece. -/
theorem loopOf_rest_of_clearAndTry (hc : InOrder c) (hs : c.strand = .clearAndTry :: rest) :
    loopOf rest = [] ∨ ∃ msg, loopOf rest = [.message msg] ∧ c.reading = false := by
  have hloop := hc.loop_cons hs rfl
  generalize loopOf rest = l at hloop ⊢
  generalize c.reading = b at hloop ⊢
  cases hloop with
  | clearAndTry => exact .inl rfl
  | clearAndTryMessage msg => exact .inr ⟨msg, rfl, rfl⟩

/-- At most the end of a piece waits behind a read. -/
theorem loopOf_rest_of_read (hc : InOrder c) (hs : c.strand = .read :: rest) :
    loopOf rest = [] ∨ loopOf rest = [.clearAndTry] := by
  have hloop := hc.loop_cons hs rfl
  generalize loopOf rest = l at hloop ⊢
  generalize c.reading = b at hloop ⊢
  cases hloop with
  | read => exact .inl rfl
  | readClearAndTry => exact .inr rfl

end

/-! ### A handler runs -/

/-- A read can be queued behind nothing, a choke or a block. -/
theorem InOrder.postRead {c : Core} (hc : InOrder c) (hl : Loop (loopOf c.strand ++ [.read]) c.reading) :
    InOrder (c.postIfSubscribed .read) := by
  unfold Core.postIfSubscribed
  split_ifs
  · exact hc
  · refine .of (loopOf_append c.strand rfl) rfl hl fun hmem => hc.choked ?_
    simpa [Core.post] using hmem

/-- Where nothing of the loop is queued, a read can be. -/
theorem inOrder_of_loopOf_nil {c : Core} (hl : loopOf c.strand = []) (hr : c.reading = false) :
    InOrder c ∧ InOrder (c.postIfSubscribed .read) := by
  have hc : InOrder c := .of hl rfl (.nothing _) fun hmem =>
    absurd hmem (not_mem_of_loopOf hl rfl (by simp))
  refine ⟨hc, hc.postRead ?_⟩
  rw [hl, hr]
  exact .read

/-- What a message leaves to be done before the next read. -/
theorem inOrder_response {cfg : Config} {m m' : Master} {c c' : Core} {rejected : Message → Bool}
    {msg : Message} (hl : loopOf c.strand = []) (hr : c.reading = false)
    (h : Response cfg m c rejected msg m' c') : InOrder (c'.postIfSubscribed .read) := by
  cases h with
  | ignores => exact (inOrder_of_loopOf_nil hl hr).2
  | choke =>
    have hl' : loopOf (c.strand ++ [.onChoked]) = [.onChoked] := by
      rw [loopOf_append _ rfl, hl]
      rfl
    have hc : InOrder ({ c with peerChoking := true }.post .onChoked) :=
      .of hl' hr .onChoked fun _ => rfl
    refine hc.postRead ?_
    dsimp only [Core.post]
    rw [hl', hr]
    exact .onChokedRead
  | unchoke h =>
    have hframe := attempt_frame h
    refine (inOrder_of_loopOf_nil ?_ ?_).2
    · rw [hframe]
      exact hl
    · rw [hframe]
      exact hr
  | offer hmsg h =>
    have hframe := attempt_frame h
    refine (inOrder_of_loopOf_nil ?_ ?_).2
    · rw [hframe]
      exact hl
    · rw [hframe]
      exact hr
  | rejects hmsg =>
    unfold Core.disconnect
    split_ifs
    · exact (inOrder_of_loopOf_nil hl hr).2
    · refine (inOrder_of_loopOf_nil ?_ ?_).2
      · exact (loopOf_append_of_not c.strand rfl).trans hl
      · exact hr
  | cancels index begin_ data hdone hreq =>
    refine (inOrder_of_loopOf_nil ?_ ?_).2
    · exact (loopOf_append_of_not c.strand rfl).trans hl
    · exact hr
  | accepts index begin_ data ha =>
    have hl' : loopOf (c.strand ++ [.block index begin_ data]) = [.block index begin_ data] := by
      rw [loopOf_append _ rfl, hl]
      rfl
    have hc : InOrder (c.post (.block index begin_ data)) :=
      .of hl' hr (.block index begin_ data) fun hmem =>
        absurd hmem (not_mem_of_loopOf hl' rfl (by simp))
    refine hc.postRead ?_
    dsimp only [Core.post]
    rw [hl', hr]
    exact .blockRead index begin_ data

/-- **A handler keeps the strand in order.** -/
theorem inOrder_act {cfg : Config} {m m' : Master} {c c' : Core} {rejected : Message → Bool}
    {h : Handler} {rest : List Handler} (hc : InOrder c) (hs : c.strand = h :: rest)
    (hact : Act cfg m { c with strand := rest } rejected h m' c') : InOrder c' := by
  have hmem : .onChoked ∈ rest → c.peerChoking = true := fun hmem =>
    hc.choked (hs ▸ List.mem_cons_of_mem h hmem)
  cases hact with
  | read =>
    rcases loopOf_rest_of_read hc hs with hl | hl
    · exact .of hl rfl (.nothing _) hmem
    · exact .of hl rfl (.clearAndTry _) hmem
  | keepAliveFrame => exact .of (loopOf_rest_of_message hc hs).1 rfl (.nothing _) hmem
  | message hres =>
    obtain ⟨hl, hr⟩ := loopOf_rest_of_message hc hs
    exact inOrder_response (c := { c with strand := rest }) hl hr hres
  | idle hnone hh =>
    rcases hh with rfl | rfl
    · obtain ⟨hl | hl, hr⟩ := loopOf_rest_of_choke_or_block hc hs (.inl rfl)
      · exact .of hl rfl (.nothing _) hmem
      · exact .of hl hr .read hmem
    · exact hc.tail hs rfl
  | onChoked piece hpiece =>
    obtain ⟨hl | hl, hr⟩ := loopOf_rest_of_choke_or_block hc hs (.inl rfl)
    · exact .of hl rfl (.nothing _) hmem
    · exact .of hl hr .read hmem
  | stores piece index begin_ data hpiece hslot =>
    obtain ⟨hl | hl, hr⟩ := loopOf_rest_of_choke_or_block hc hs (.inr ⟨index, begin_, data, rfl⟩)
    · exact .of hl rfl (.nothing _) hmem
    · exact .of hl hr .read hmem
  | completes piece index begin_ data hpiece hslot hlast =>
    have hmem' : .onChoked ∈ rest ++ [.clearAndTry] → c.peerChoking = true := fun h =>
      hmem (by simpa using h)
    have happ := loopOf_append rest (h := .clearAndTry) rfl
    obtain ⟨hl | hl, hr⟩ := loopOf_rest_of_choke_or_block hc hs (.inr ⟨index, begin_, data, rfl⟩)
    · rw [hl] at happ
      exact .of happ rfl (.clearAndTry _) hmem'
    · rw [hl] at happ
      exact .of happ hr .readClearAndTry hmem'
  | clearAndTry hatt =>
    rcases loopOf_rest_of_clearAndTry hc hs with hl | ⟨msg, hl, hr⟩
    · refine InOrder.attempt ?_ hatt
      exact .of hl rfl (.nothing _) hmem
    · refine InOrder.attempt ?_ hatt
      exact .of hl hr (.message msg) hmem
  | timeoutFired => exact (hc.tail hs rfl).post rfl
  | pieceTimeout piece hpiece =>
    have hrest := (hc.tail hs rfl).postIfSubscribed (h := .tryToRequest) rfl
    split_ifs
    · exact hrest
    · exact hrest.post rfl
  | cancelPiece piece hpiece =>
    have hrest := hc.tail hs rfl
    exact ⟨hrest.loop, hrest.choked⟩
  | notActive id hid hh =>
    rcases hh with rfl | rfl
    · exact hc.tail hs rfl
    · exact hc.tail hs rfl
  | tryToRequest hatt => exact (hc.tail hs rfl).attempt hatt
  | cancelIfActive piece hpiece => exact (hc.tail hs rfl).post rfl
  | keepAlive hatt => exact (hc.tail hs rfl).attempt hatt
  | disconnect => exact (hc.tail hs rfl).disconnect
  | cancelOperation =>
    have hrest := hc.tail hs rfl
    have hloop := hrest.loop
    refine .of rfl rfl ?_ hrest.choked
    dsimp only at hloop ⊢
    generalize loopOf rest = l at hloop ⊢
    generalize c.reading = b at hloop
    cases hloop <;> constructor

/-! ### Steps and runs -/

theorem inOrder_queued {c c' : Core} (hc : InOrder c) (h : Queued c c') : InOrder c' := by
  cases h with
  | message msg hread =>
    have hloop := hc.loop
    rw [hread] at hloop
    refine .of (loopOf_append c.strand rfl) rfl ?_ fun hmem => hc.choked (by simpa [Core.post] using hmem)
    dsimp only [Core.post]
    generalize loopOf c.strand = l at hloop ⊢
    cases hloop with
    | nothing => exact .message msg
    | clearAndTry => exact .clearAndTryMessage msg
  | timeout => exact hc.post rfl
  | keepAlive => exact hc.post rfl
  | disconnect => exact hc.post rfl

theorem inOrder_told {cfg : Config} {c c' : Core} (hc : InOrder c) (h : Told cfg c c') :
    InOrder c' := by
  cases h with
  | nothing => exact hc
  | tryToRequest => exact hc.post rfl
  | cancelIfActive i => exact hc.post rfl

variable {n : ℕ}

theorem inOrder_step {cfg : Config} {s s' : State n} {e : Event n}
    (hs : ∀ p, InOrder (coreOf s p)) (h : step cfg s e = some s') : ∀ p, InOrder (coreOf s' p) :=
  clients_step InOrder hs (fun _ _ => inOrder_queued) (fun _ _ => inOrder_told)
    (fun p _ _ _ _ hstrand => inOrder_act (hs p) hstrand) h

theorem inOrder_init (cfg : Config) (disk : Disk) (p : Fin n) :
    InOrder (coreOf (init n cfg disk) p) :=
  .of (l := [.read]) rfl rfl .read fun h => by simp [coreOf, init, access, core] at h

/-- **Every strand is in order, in every run.** -/
theorem inOrder_run {cfg : Config} {disk : Disk} {es : List (Event n)} {s : State n}
    (h : run (step cfg) (init n cfg disk) es = some s) (p : Fin n) : InOrder (coreOf s p) :=
  invariant_of_run (fun s => ∀ p, InOrder (coreOf s p)) (fun _ _ => True)
    (fun _ _ _ hi _ => inOrder_step hi) (inOrder_init cfg disk) (along_true _ _) h p

end CppTorrent.Swarm.ReadOrder
