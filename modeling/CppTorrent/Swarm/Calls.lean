import CppTorrent.Swarm.Steps

/-! # Where a handler chooses a piece

`ChoosePiece` is only called in `TryToRequestPiece`, by a client without an active piece. `callOf` is
the state in which a handler calls `TryToRequestPiece` for such a client, `atChoice` the state in which
that calls `ChoosePiece`. `execute_of_choiceOf` puts a handler together again: it comes to the choice,
makes it, requests the blocks and ends; a handler that does not come to a choice does not depend on the
random number (`execute_of_no_choice`). -/

namespace CppTorrent.Swarm.Calls

open CppTorrent.Files.Blocks CppTorrent.Swarm.Model CppTorrent.Swarm.Steps

/-- The client when a handler calls `TryToRequestPiece`. The calls in `OnPieceBlock` and in the handler
of `CancelPiece` are left out: there the client has an active piece. -/
def callOf (cfg : Config) (m : Master) (c : Client) : Handler → Option Client
  | .message .unchoke => some { c with peerChoking := false }
  | .message .interested =>
    let c := { c with peerInterested := true }
    let c := if c.amChoking ∧ ¬c.isDisconnected then sendUnchoke c else c
    if c.peerChoking then none else some c
  | .message (.have_ i) =>
    if cfg.total ≤ i ∨ i ∈ m.bitfield then none else some { c with pieces := insert i c.pieces }
  | .message (.bitfield payload) =>
    if (cfg.total + 7) / 8 < payload.length then none
    else
      let c := { c with pieces := c.pieces ∪ bitsOf cfg.total payload }
      some (if (c.pieces \ m.bitfield).Nonempty then sendInterested c else c)
  | .clearAndTry => some { c with activePiece := none }
  | .tryToRequest => some c
  | .keepAlive => if c.amInterested then some (c.send .keepAlive) else none
  | _ => none

/-- The client when `TryToRequestPiece` calls `ChoosePiece`. -/
def atChoice (cfg : Config) (m : Master) (c : Client) : Option Client :=
  if c.activePiece.isSome ∨ m.bitfield.card = cfg.total ∨ c.peerChoking then none
  else some (if c.amInterested then c else sendInterested c)

/-- The client when a handler calls `ChoosePiece`. -/
def choiceOf (cfg : Config) (m : Master) (c : Client) (h : Handler) : Option Client :=
  (callOf cfg m c h).bind (atChoice cfg m)

/-- The rest of `TryToRequestPiece` after `ChoosePiece`. -/
def afterChoice (cfg : Config) (c : Client) : Option ℕ → Client
  | none => c
  | some i => requestBlocks (cfg.sizeOf i) (newPiece i (blockCountOf (cfg.sizeOf i))) 0 c

/-- The rest of a handler after `TryToRequestPiece`. -/
def resume (h : Handler) (c : Client) : Client :=
  match h with
  | .message _ => doReadHeader c
  | _ => c

/-- A client that comes to a choice has no active piece, is not choked, and is interested. -/
theorem atChoice_spec {cfg : Config} {m : Master} {c c' : Client} (h : atChoice cfg m c = some c') :
    c.activePiece = none ∧ m.bitfield.card ≠ cfg.total ∧ c.peerChoking = false ∧
      c' = if c.amInterested then c else sendInterested c := by
  unfold atChoice at h
  by_cases hno : c.activePiece.isSome ∨ m.bitfield.card = cfg.total ∨ c.peerChoking
  · rw [if_pos hno] at h
    cases h
  · rw [if_neg hno] at h
    push Not at hno
    obtain ⟨hact, hcard, hchoke⟩ := hno
    refine ⟨?_, hcard, by simpa using hchoke, (Option.some.inj h).symm⟩
    cases hpiece : c.activePiece with
    | none => rfl
    | some active => rw [hpiece] at hact; cases hact rfl

/-- Up to the choice only the interest of the client changes. -/
theorem core_atChoice {cfg : Config} {m : Master} {c c' : Client} (h : atChoice cfg m c = some c') :
    core c' = core c := by
  obtain ⟨-, -, -, rfl⟩ := atChoice_spec h
  split_ifs
  · rfl
  · exact core_sendInterested c

theorem core_afterChoice (cfg : Config) (c : Client) (i : ℕ) :
    core (afterChoice cfg c (some i)) =
      { core c with piece := some (newPiece i (blockCountOf (cfg.sizeOf i))) } :=
  core_requestBlocks _ _ _ _

/-- **`TryToRequestPiece` at a choice.** -/
theorem tryToRequestPiece_of_atChoice {cfg : Config} {m : Master} {c c' : Client}
    (h : atChoice cfg m c = some c') (r : ℕ) :
    tryToRequestPiece cfg r m c =
      ((choosePiece cfg r m c').2, afterChoice cfg c' (choosePiece cfg r m c').1) := by
  obtain ⟨hact, hcard, hchoke, rfl⟩ := atChoice_spec h
  unfold tryToRequestPiece
  rw [hact]
  dsimp only
  rw [if_neg hcard, hchoke, if_neg Bool.false_ne_true]
  generalize choosePiece cfg r m (if c.amInterested then c else sendInterested c) = chosen
  obtain ⟨found, m'⟩ := chosen
  cases found with
  | none => rfl
  | some i => rfl

/-- Without a choice `TryToRequestPiece` leaves the master peer and the core of the client alone. -/
theorem tryToRequestPiece_keeps {cfg : Config} {m : Master} {c : Client}
    (h : atChoice cfg m c = none) (r : ℕ) :
    (tryToRequestPiece cfg r m c).1 = m ∧ core (tryToRequestPiece cfg r m c).2 = core c := by
  have hatt := attempt_tryToRequestPiece cfg r m c
  cases hact : c.activePiece with
  | some active => exact attempt_of_piece (by rw [core, hact]; rfl) hatt
  | none =>
    unfold tryToRequestPiece
    rw [hact]
    dsimp only
    by_cases hcard : m.bitfield.card = cfg.total
    · rw [if_pos hcard]
      exact ⟨rfl, core_sendNotInterested c⟩
    · rw [if_neg hcard]
      by_cases hchoke : c.peerChoking = true
      · rw [if_pos hchoke]
        exact ⟨rfl, rfl⟩
      · rw [atChoice, hact, if_neg (by simp [hcard, hchoke])] at h
        cases h

/-- Without a choice `TryToRequestPiece` does not depend on the random number. -/
theorem tryToRequestPiece_of_no_choice {cfg : Config} {m : Master} {c : Client}
    (h : atChoice cfg m c = none) (r r' : ℕ) :
    tryToRequestPiece cfg r m c = tryToRequestPiece cfg r' m c := by
  unfold tryToRequestPiece
  cases hact : c.activePiece with
  | some active => rfl
  | none =>
    dsimp only
    by_cases hcard : m.bitfield.card = cfg.total
    · rw [if_pos hcard, if_pos hcard]
    · rw [if_neg hcard, if_neg hcard]
      by_cases hchoke : c.peerChoking = true
      · rw [if_pos hchoke, if_pos hchoke]
      · rw [atChoice, hact, if_neg (by simp [hcard, hchoke])] at h
        cases h

/-- The handlers that call `TryToRequestPiece`, with the client there. -/
inductive Calling (cfg : Config) (m : Master) (c : Client) : Handler → Client → Prop
  | unchoke : Calling cfg m c (.message .unchoke) { c with peerChoking := false }
  | unchokes (hfree : c.amChoking ∧ ¬c.isDisconnected)
      (hchoke : ¬ (sendUnchoke { c with peerInterested := true }).peerChoking = true) :
      Calling cfg m c (.message .interested) (sendUnchoke { c with peerInterested := true })
  | interested (hfree : ¬ (c.amChoking ∧ ¬c.isDisconnected)) (hchoke : ¬ c.peerChoking = true) :
      Calling cfg m c (.message .interested) { c with peerInterested := true }
  | have_ {i : ℕ} (hi : i < cfg.total) (hnew : i ∉ m.bitfield) :
      Calling cfg m c (.message (.have_ i)) { c with pieces := insert i c.pieces }
  | bitfield {payload : List UInt8} (hlong : ¬ (cfg.total + 7) / 8 < payload.length) :
      Calling cfg m c (.message (.bitfield payload))
        (if ((c.pieces ∪ bitsOf cfg.total payload) \ m.bitfield).Nonempty then
          sendInterested { c with pieces := c.pieces ∪ bitsOf cfg.total payload }
        else { c with pieces := c.pieces ∪ bitsOf cfg.total payload })
  | clearAndTry : Calling cfg m c .clearAndTry { c with activePiece := none }
  | tryToRequest : Calling cfg m c .tryToRequest c
  | keepAlive (hint : c.amInterested = true) : Calling cfg m c .keepAlive (c.send .keepAlive)

theorem calling_of_callOf {cfg : Config} {m : Master} {c c' : Client} {h : Handler}
    (hcall : callOf cfg m c h = some c') : Calling cfg m c h c' := by
  cases h with
  | message msg =>
    cases msg with
    | unchoke => cases hcall; exact .unchoke
    | interested =>
      dsimp only [callOf] at hcall
      split_ifs at hcall with hfree hchoke hchoke
      · cases hcall; exact .unchokes hfree hchoke
      · cases hcall; exact .interested hfree hchoke
    | have_ i =>
      dsimp only [callOf] at hcall
      split_ifs at hcall with hno
      push Not at hno
      cases hcall
      exact .have_ hno.1 hno.2
    | bitfield payload =>
      dsimp only [callOf] at hcall
      by_cases hlong : (cfg.total + 7) / 8 < payload.length
      · rw [if_pos hlong] at hcall
        cases hcall
      · rw [if_neg hlong] at hcall
        obtain rfl := Option.some.inj hcall
        exact .bitfield hlong
    | _ => cases hcall
  | clearAndTry => cases hcall; exact .clearAndTry
  | tryToRequest => cases hcall; exact .tryToRequest
  | keepAlive =>
    dsimp only [callOf] at hcall
    split_ifs at hcall with hint
    cases hcall
    exact .keepAlive hint
  | _ => cases hcall

/-- **A handler that calls `TryToRequestPiece`.** -/
theorem execute_of_callOf {cfg : Config} {m : Master} {c c' : Client} {h : Handler}
    (hcall : callOf cfg m c h = some c') (r : ℕ) :
    execute cfg r m c h =
      some ((tryToRequestPiece cfg r m c').1, resume h (tryToRequestPiece cfg r m c').2) := by
  cases calling_of_callOf hcall with
  | unchoke => rfl
  | unchokes hfree hchoke =>
    dsimp only [execute, onMessage, handleResponse, resume]
    rw [if_pos hfree, if_neg hchoke]
  | interested hfree hchoke =>
    dsimp only [execute, onMessage, handleResponse, resume]
    rw [if_neg hfree, if_neg hchoke]
  | have_ hi hnew =>
    dsimp only [execute, onMessage, handleResponse, resume]
    rw [if_neg (by omega), if_neg hnew]
  | bitfield hlong =>
    dsimp only [execute, onMessage, handleResponse, resume]
    rw [if_neg hlong]
  | clearAndTry => rfl
  | tryToRequest => rfl
  | keepAlive hint =>
    dsimp only [execute, resume]
    rw [if_pos (Or.inl hint), if_pos (by rw [amInterested_send]; exact hint)]

/-- **A handler that chooses a piece.** -/
theorem execute_of_choiceOf {cfg : Config} {m : Master} {c c' : Client} {h : Handler}
    (hchoice : choiceOf cfg m c h = some c') (r : ℕ) :
    execute cfg r m c h = some ((choosePiece cfg r m c').2,
      resume h (afterChoice cfg c' (choosePiece cfg r m c').1)) := by
  obtain ⟨c1, hcall, hat⟩ := Option.bind_eq_some_iff.mp hchoice
  rw [execute_of_callOf hcall, tryToRequestPiece_of_atChoice hat]

theorem atChoice_of_isSome {cfg : Config} {m : Master} {c : Client}
    (h : c.activePiece.isSome = true) : atChoice cfg m c = none := if_pos (Or.inl h)

/-- A keep-alive that chooses no piece is sent without interest. -/
theorem amInterested_of_callOf_keepAlive {cfg : Config} {m : Master} {c : Client}
    (hcall : callOf cfg m c .keepAlive = none) : ¬ (c.send .keepAlive).amInterested = true := by
  dsimp only [callOf] at hcall
  split_ifs at hcall with hint
  rw [amInterested_send]
  exact hint

/-- **A handler that chooses no piece** does not depend on the random number. -/
theorem execute_of_no_choice {cfg : Config} {m : Master} {c : Client} {h : Handler}
    (hchoice : choiceOf cfg m c h = none) (r r' : ℕ) :
    execute cfg r m c h = execute cfg r' m c h := by
  cases hcall : callOf cfg m c h with
  | some c1 =>
    have hat : atChoice cfg m c1 = none := by
      rw [choiceOf, hcall] at hchoice
      exact hchoice
    rw [execute_of_callOf hcall, execute_of_callOf hcall, tryToRequestPiece_of_no_choice hat r r']
  | none =>
    cases h with
    | message msg =>
      cases msg with
      | unchoke => cases hcall
      | interested =>
        dsimp only [callOf] at hcall
        dsimp only [execute, onMessage, handleResponse]
        split_ifs at hcall with hunchoke hchoke hchoke
        · rw [if_pos hunchoke, if_pos hchoke, if_pos hchoke]
        · rw [if_neg hunchoke, if_pos hchoke, if_pos hchoke]
      | have_ i =>
        dsimp only [callOf] at hcall
        dsimp only [execute, onMessage, handleResponse]
        split_ifs at hcall with hno
        rcases hno with htotal | hdone
        · rw [if_pos htotal, if_pos htotal]
        · rw [if_pos hdone, if_pos hdone]
      | bitfield payload =>
        dsimp only [callOf] at hcall
        dsimp only [execute, onMessage, handleResponse]
        by_cases hlong : (cfg.total + 7) / 8 < payload.length
        · rw [if_pos hlong, if_pos hlong]
        · rw [if_neg hlong] at hcall
          cases hcall
      | _ => rfl
    | block index begin_ data =>
      dsimp only [execute, storeBlock]
      cases hact : c.activePiece with
      | none => rfl
      | some active =>
        obtain ⟨piece, offset⟩ := active
        have hsome : atChoice cfg m
            { c with activePiece := some (stored piece begin_ data, offset) } = none :=
          atChoice_of_isSome rfl
        dsimp only
        rw [tryToRequestPiece_of_no_choice hsome r r']
    | clearAndTry => cases hcall
    | tryToRequest => cases hcall
    | cancelIfActive id =>
      dsimp only [execute]
      by_cases hact : c.isActive id = true
      · have hsome : (c.post (.cancelPiece id)).activePiece.isSome = true := by
          change c.activePiece.isSome = true
          unfold Client.isActive at hact
          cases hpiece : c.activePiece with
          | none => rw [hpiece] at hact; cases hact
          | some active => rfl
        rw [if_pos hact, if_pos hact,
          tryToRequestPiece_of_no_choice (atChoice_of_isSome hsome) r r']
      · rw [if_neg hact, if_neg hact]
    | keepAlive =>
      have hint := amInterested_of_callOf_keepAlive hcall
      dsimp only [execute]
      rw [if_neg hint, if_neg hint]
    | _ => rfl

/-- What a handler can do to its client before it calls `TryToRequestPiece`. -/
structure Called (h : Handler) (c c' : Core) : Prop where
  subscribed : c'.isDisconnected = c.isDisconnected
  strand : c'.strand = c.strand
  piece : c'.piece = c.piece ∨ h = .clearAndTry ∧ c'.piece = none
  choking : c'.peerChoking = true → c.peerChoking = true
  reading : c'.reading = c.reading

theorem Called.keeps {h : Handler} {c c' : Core} (heq : c' = c) : Called h c c' := by
  subst heq
  exact ⟨rfl, rfl, .inl rfl, id, rfl⟩

theorem called_callOf {cfg : Config} {m : Master} {c c' : Client} {h : Handler}
    (hcall : callOf cfg m c h = some c') : Called h (core c) (core c') := by
  cases calling_of_callOf hcall with
  | unchoke => exact ⟨rfl, rfl, .inl rfl, nofun, rfl⟩
  | unchokes => exact .keeps (core_sendUnchoke _)
  | interested => exact .keeps rfl
  | have_ => exact .keeps rfl
  | bitfield =>
    refine .keeps ?_
    split_ifs
    · exact core_sendInterested _
    · rfl
  | clearAndTry => exact ⟨rfl, rfl, .inr ⟨rfl, rfl⟩, id, rfl⟩
  | tryToRequest => exact .keeps rfl
  | keepAlive => exact .keeps (core_send _ _)

end CppTorrent.Swarm.Calls
