import CppTorrent.Lib.History
import CppTorrent.Swarm.Choice

/-! # What a client says

The other side of a connection sees a client by its messages. `Voice` is the part of a client that
decides about them: the four flags, the index of the active piece, the pieces of the remote peer, and
the messages themselves. A message that is handled first changes the flags (`Voice.hears`); everything
else that a handler does to the voice is a sequence of the steps listed in `Talk`
(`talks_handleResponse`, `talks_execute`). -/

namespace CppTorrent.Swarm.Voices

open CppTorrent.Lib.History
open CppTorrent.Files.Blocks CppTorrent.Swarm.Model CppTorrent.Swarm.Steps CppTorrent.Swarm.Choice
open Relation (ReflTransGen)

/-- The part of a client that decides about its messages. -/
@[ext] structure Voice where
  isDisconnected : Bool
  amChoking : Bool
  amInterested : Bool
  peerChoking : Bool
  peerInterested : Bool
  /-- the index of the active piece -/
  piece : Option ℕ
  pieces : Finset ℕ
  sent : List Message

/-- The voice of a client. -/
def voice (c : Client) : Voice :=
  ⟨c.isDisconnected, c.amChoking, c.amInterested, c.peerChoking, c.peerInterested,
    c.activePiece.map fun active => active.1.index, c.pieces, c.sent⟩

/-- Gives a message to the socket. -/
def Voice.speak (msg : Message) (v : Voice) : Voice :=
  if v.isDisconnected then v else { v with sent := v.sent ++ [msg] }

/-- The active piece is another one, or there is none. -/
def Voice.withPiece (piece : Option ℕ) (v : Voice) : Voice := { v with piece := piece }

/-- The effect of `Disconnect`. -/
def Voice.disconnect (v : Voice) : Voice := { v with isDisconnected := true }

/-- What a message changes before anything is done about it. -/
def Voice.hears (total : ℕ) (v : Voice) : Message → Voice
  | .choke => { v with peerChoking := true }
  | .unchoke => { v with peerChoking := false }
  | .interested => { v with peerInterested := true }
  | .notInterested => { v with peerInterested := false }
  | .have_ i => if total ≤ i then v else { v with pieces := insert i v.pieces }
  | .bitfield payload =>
    if (total + 7) / 8 < payload.length then v
    else { v with pieces := v.pieces ∪ bitsOf total payload }
  | _ => v

/-- What a client can do on its own, for a number of pieces and those that are done. -/
inductive Talk (total : ℕ) (bits : Finset ℕ) (v : Voice) : Voice → Prop
  | keepAlive : Talk total bits v (v.speak .keepAlive)
  | cancels (i begin_ length : ℕ) (hpiece : v.piece = some i) :
      Talk total bits v (v.speak (.cancel (i % 2 ^ 32) begin_ length))
  | drops : Talk total bits v (v.withPiece none)
  | notInterested (hnone : v.piece = none) (hall : bits.card = total) :
      Talk total bits v (Voice.speak .notInterested { v with amInterested := false })
  | interested : Talk total bits v (Voice.speak .interested { v with amInterested := true })
  | chooses (i : ℕ) (hnone : v.piece = none) (hmore : bits.card ≠ total)
      (hchoke : v.peerChoking = false) (hinterested : v.amInterested = true) (hi : i < total)
      (hpieces : i ∈ v.pieces) : Talk total bits v (v.withPiece (some (i % 2 ^ 32)))
  | requests (i begin_ length : ℕ) (hpiece : v.piece = some i) :
      Talk total bits v (v.speak (.request (i % 2 ^ 32) begin_ length))
  | unchokes (hconnected : v.isDisconnected = false) (hpeer : v.peerInterested = true) :
      Talk total bits v (Voice.speak .unchoke { v with amChoking := false })
  | chokes (hchoking : v.amChoking = false) (hpeer : v.peerInterested = false) :
      Talk total bits v (Voice.speak .choke { v with amChoking := true })

/-- What a client can do on its own, one step after the other. -/
abbrev Talks (total : ℕ) (bits : Finset ℕ) : Voice → Voice → Prop := ReflTransGen (Talk total bits)

/-! ### The voices after the operations -/

@[simp] theorem voice_send (msg : Message) (c : Client) : voice (c.send msg) = (voice c).speak msg := by
  unfold Client.send Voice.speak
  exact apply_ite voice _ _ _

@[simp] theorem voice_post (h : Handler) (c : Client) : voice (c.post h) = voice c := rfl

@[simp] theorem voice_postIfSubscribed (h : Handler) (c : Client) :
    voice (c.postIfSubscribed h) = voice c := by
  unfold Client.postIfSubscribed
  split_ifs <;> rfl

@[simp] theorem voice_disconnect (c : Client) : voice (disconnect c) = (voice c).disconnect := by
  unfold disconnect Voice.disconnect
  split_ifs with h
  · exact Voice.ext h rfl rfl rfl rfl rfl rfl rfl
  · rfl

@[simp] theorem withPiece_speak (msg : Message) (piece : Option ℕ) (v : Voice) :
    (v.speak msg).withPiece piece = (v.withPiece piece).speak msg := by
  unfold Voice.speak
  split_ifs <;> simp_all [Voice.withPiece]

theorem piece_speak (msg : Message) (v : Voice) : (v.speak msg).piece = v.piece := by
  unfold Voice.speak
  split_ifs <;> rfl

theorem withPiece_self {v : Voice} {piece : Option ℕ} (h : v.piece = piece) : v.withPiece piece = v := by
  subst h
  rfl

/-! ### Requests and cancels -/

variable {total : ℕ} {bits : Finset ℕ}

/-- The loop of `TryToRequestPiece`, as far as the piece it requests is the active one. -/
theorem talks_requestLoop (index : ℕ) : ∀ (reqCount pieceSize begin_ : ℕ) (c : Client),
    Talks total bits ((voice c).withPiece (some index))
      ((voice (requestLoop index reqCount pieceSize begin_ c).1).withPiece (some index))
  | 0, _, _, _ => .refl
  | reqCount + 1, pieceSize, begin_, c => by
    rw [requestLoop]
    split_ifs
    · refine .head ?_ (talks_requestLoop index reqCount _ _ _)
      rw [sendRequest, voice_send, withPiece_speak]
      exact .requests index _ _ rfl
    · exact .refl

theorem talks_requestBlocks (pieceSize : ℕ) (piece : Piece) (begin_ : ℕ) (c : Client) :
    Talks total bits ((voice c).withPiece (some piece.index))
      (voice (requestBlocks pieceSize piece begin_ c)) := by
  have h : Talks total bits ((voice c).withPiece (some piece.index))
      ((voice (requestLoop piece.index requestMaxQueueSize pieceSize begin_ c).1).withPiece
        (some piece.index)) := talks_requestLoop piece.index requestMaxQueueSize pieceSize begin_ c
  unfold requestBlocks
  generalize requestLoop piece.index requestMaxQueueSize pieceSize begin_ c = res at h ⊢
  obtain ⟨c', rest, begin', more⟩ := res
  dsimp only at h ⊢
  split_ifs
  · refine h.tail ?_
    have hlast : voice { sendRequest piece.index begin' rest c' with
        activePiece := some (piece, begin' + rest), waiting := true } =
          ((voice c').withPiece (some piece.index)).speak
            (.request (piece.index % 2 ^ 32) (begin' % 2 ^ 32) (rest % 2 ^ 32)) := by
      rw [← withPiece_speak, ← voice_send]
      rfl
    rw [hlast]
    exact .requests piece.index _ _ rfl
  · exact h

theorem talks_cancelLoop (id : ℕ) : ∀ (fuel length begin_ : ℕ) (c : Client),
    (voice c).piece = some id → Talks total bits (voice c) (voice (cancelLoop id fuel length begin_ c))
  | 0, length, begin_, c, h => by
    rw [cancelLoop, sendCancel, voice_send]
    exact .single (.cancels id _ _ h)
  | fuel + 1, length, begin_, c, h => by
    rw [cancelLoop]
    split_ifs
    · have hsent : voice (sendCancel id begin_ mostRequestSize c) = (voice c).speak
          (.cancel (id % 2 ^ 32) (begin_ % 2 ^ 32) (mostRequestSize % 2 ^ 32)) := voice_send _ _
      refine .head ?_ (talks_cancelLoop id fuel _ _ _ ?_)
      · rw [hsent]
        exact .cancels id _ _ h
      · rw [hsent, piece_speak]
        exact h
    · rw [sendCancel, voice_send]
      exact .single (.cancels id _ _ h)

/-- What a client says that looks for a piece. -/
theorem talks_choosePiece (cfg : Config) (r : ℕ) (m : Master) {c : Client}
    (hnone : c.activePiece = none) (hmore : m.bitfield.card ≠ cfg.total)
    (hchoke : c.peerChoking = false) (hinterested : c.amInterested = true) :
    Talks cfg.total m.bitfield (voice c) (voice (match choosePiece cfg r m c with
      | (none, m) => (m, c)
      | (some i, m) =>
        (m, requestBlocks (cfg.sizeOf i) (newPiece i (blockCountOf (cfg.sizeOf i))) 0 c)).2) := by
  have hfst := choosePiece_fst cfg r m c
  generalize choosePiece cfg r m c = choice at hfst ⊢
  obtain ⟨_ | i, m'⟩ := choice
  · exact .refl
  · obtain ⟨j, ⟨hpieces, -, -⟩, hj, rfl⟩ := mem_piecesIds_iff.mp (List.mem_of_getElem? hfst.symm)
    have hvoice : (voice c).piece = none := by simp [voice, hnone]
    exact .head (.chooses j hvoice hmore hchoke hinterested hj hpieces)
      (talks_requestBlocks _ (newPiece (j % 2 ^ 32) _) 0 c)

/-- **What `TryToRequestPiece` says.** -/
theorem talks_tryToRequestPiece (cfg : Config) (r : ℕ) (m : Master) (c : Client) :
    Talks cfg.total m.bitfield (voice c) (voice (tryToRequestPiece cfg r m c).2) := by
  unfold tryToRequestPiece
  cases hact : c.activePiece with
  | some active =>
    obtain ⟨piece, begin_⟩ := active
    have hpiece : (voice c).piece = some piece.index := by simp [voice, hact]
    dsimp only
    split_ifs
    · exact .refl
    · have h : Talks cfg.total m.bitfield ((voice c).withPiece (some piece.index))
          (voice (requestBlocks (cfg.sizeOf piece.index) piece begin_ c)) :=
        talks_requestBlocks (cfg.sizeOf piece.index) piece begin_ c
      rwa [withPiece_self hpiece] at h
  | none =>
    have hnone : (voice c).piece = none := by simp [voice, hact]
    dsimp only
    split_ifs with hall hchoke hinterested
    · rw [sendNotInterested, voice_send]
      exact .single (.notInterested hnone hall)
    · exact .refl
    · exact talks_choosePiece cfg r m hact hall (by simpa using hchoke) hinterested
    · have hfields : (sendInterested c).activePiece = none ∧ (sendInterested c).peerChoking = false ∧
          (sendInterested c).amInterested = true := by
        unfold sendInterested Client.send
        split_ifs
        · exact ⟨hact, by simpa using hchoke, rfl⟩
        · exact ⟨hact, by simpa using hchoke, rfl⟩
      obtain ⟨hact', hchoke', hinterested'⟩ := hfields
      have hspeak : voice (sendInterested c) =
          Voice.speak .interested { voice c with amInterested := true } := voice_send _ _
      refine .head .interested ?_
      rw [← hspeak]
      exact talks_choosePiece cfg r m hact' hall hchoke' hinterested'

/-! ### Messages -/

/-- `OnPieceBlock` says nothing. -/
theorem voice_onPieceBlock (cfg : Config) (m : Master) (index begin_ : ℕ) (data : List UInt8)
    (c : Client) : voice (onPieceBlock cfg m index begin_ data c) =
      if cfg.total ≤ index then (voice c).disconnect else voice c := by
  unfold onPieceBlock
  split_ifs
  · exact voice_disconnect c
  all_goals rfl

/-- **What `handle_response` says** on a message that is not rejected. -/
theorem talks_handleResponse (cfg : Config) (r : ℕ) (m : Master) (c : Client) (msg : Message)
    (haccept : rejects cfg c msg = false) :
    Talks cfg.total m.bitfield ((voice c).hears cfg.total msg)
      (voice (handleResponse cfg r m c msg).2) := by
  cases msg with
  | unchoke => exact talks_tryToRequestPiece cfg r m { c with peerChoking := false }
  | interested =>
    dsimp only [handleResponse]
    set c1 : Client := { c with peerInterested := true } with hc1
    have hunchoke : Talks cfg.total m.bitfield (voice c1)
        (voice (if c.amChoking = true ∧ ¬c.isDisconnected = true then sendUnchoke c1 else c1)) := by
      split_ifs with h
      · have hconnected : c.isDisconnected = false := by simpa using h.2
        rw [sendUnchoke, voice_send]
        exact .single (.unchokes hconnected rfl)
      · exact .refl
    refine hunchoke.trans ?_
    split_ifs
    all_goals first
      | exact .refl
      | exact talks_tryToRequestPiece cfg r m _
  | notInterested =>
    dsimp only [handleResponse]
    split_ifs with h
    · have hchoking : c.amChoking = false := by simpa using h.1
      rw [sendChoke, voice_send]
      exact .single (.chokes hchoking rfl)
    · exact .refl
  | have_ i =>
    dsimp only [handleResponse, Voice.hears]
    split_ifs
    · exact .refl
    · exact .refl
    · exact talks_tryToRequestPiece cfg r m { c with pieces := insert i c.pieces }
  | bitfield payload =>
    have hshort : ¬ (cfg.total + 7) / 8 < payload.length := by simpa [rejects] using haccept
    dsimp only [handleResponse, Voice.hears]
    rw [if_neg hshort, if_neg hshort]
    split_ifs
    · refine .head .interested ?_
      have h := talks_tryToRequestPiece cfg r m
        (sendInterested { c with pieces := c.pieces ∪ bitsOf cfg.total payload })
      rw [sendInterested, voice_send] at h
      exact h
    · exact talks_tryToRequestPiece cfg r m { c with pieces := c.pieces ∪ bitsOf cfg.total payload }
  | request index begin_ length =>
    have hgood : ¬(¬c.peerInterested = true ∨ c.amChoking = true ∨ cfg.total ≤ index) := by
      simpa [rejects] using haccept
    dsimp only [handleResponse]
    rw [if_neg hgood]
    exact .refl
  | piece index begin_ data =>
    have hgood : ¬ cfg.total ≤ index := by simpa [rejects] using haccept
    dsimp only [handleResponse]
    rw [voice_onPieceBlock, if_neg hgood]
    exact .refl
  | cancel index begin_ length =>
    have hgood : ¬ cfg.total ≤ index := by simpa [rejects] using haccept
    dsimp only [handleResponse]
    rw [if_neg hgood]
    exact .refl
  | invalid => cases haccept
  | choke => exact .refl
  | keepAlive => exact .refl
  | other => exact .refl

/-! ### Handlers -/

/-- **What a handler says** that is neither a message nor a disconnect. -/
theorem talks_execute {cfg : Config} {r : ℕ} {m m' : Master} {c c' : Client} {h : Handler}
    (hex : execute cfg r m c h = some (m', c')) (hmsg : ∀ msg, h ≠ .message msg)
    (hdisconnect : h ≠ .disconnect) : Talks cfg.total m.bitfield (voice c) (voice c') := by
  have htry : ∀ {c1 : Client}, some (tryToRequestPiece cfg r m c1) = some (m', c') →
      Talks cfg.total m.bitfield (voice c1) (voice c') := by
    intro c1 heq
    have htalks := talks_tryToRequestPiece cfg r m c1
    rwa [Option.some.inj heq] at htalks
  cases h with
  | message msg => exact absurd rfl (hmsg msg)
  | disconnect => exact absurd rfl hdisconnect
  | onChoked =>
    dsimp only [execute] at hex
    cases hact : c.activePiece with
    | none => rw [hact] at hex; cases hex; exact .refl
    | some active => rw [hact] at hex; cases hex; exact .single .drops
  | block index begin_ data =>
    dsimp only [execute, storeBlock] at hex
    cases hact : c.activePiece with
    | none => rw [hact] at hex; cases hex
    | some active =>
      obtain ⟨piece, offset⟩ := active
      have hsame : ∀ piece' : Piece, piece'.index = piece.index →
          voice { c with activePiece := some (piece', offset) } = voice c := by
        intro piece' hindex
        simp [voice, hact, hindex]
      rw [hact] at hex
      dsimp only at hex
      split_ifs at hex
      · cases hex
        rw [voice_post, hsame (movedFrom (stored piece begin_ data)) rfl]
      · have htalks := htry hex
        rwa [hsame (stored piece begin_ data) rfl] at htalks
      · cases hex
        rw [hsame (stored piece begin_ data) rfl]
  | clearAndTry => exact .head .drops (htry hex)
  | pieceTimeout =>
    dsimp only [execute] at hex
    cases hact : c.activePiece with
    | none => rw [hact] at hex; cases hex; exact .refl
    | some active =>
      rw [hact] at hex
      cases hex
      split_ifs
      · rw [voice_postIfSubscribed]
      · rw [voice_post, voice_postIfSubscribed]
  | cancelPiece id =>
    dsimp only [execute] at hex
    split_ifs at hex with hact
    · cases hex
      have hpiece : (voice c).piece = some id := by
        obtain ⟨piece, hpiece, rfl⟩ := isActive_eq_true_iff.mp hact
        obtain ⟨active, hactive, rfl⟩ := Option.map_eq_some_iff.mp hpiece
        exact Option.map_eq_some_iff.mpr ⟨active, hactive, rfl⟩
      exact (talks_cancelLoop id _ _ _ c hpiece).tail .drops
    · cases hex; exact .refl
  | tryToRequest => exact htry hex
  | cancelIfActive id =>
    dsimp only [execute] at hex
    split_ifs at hex
    · have htalks : Talks cfg.total m.bitfield (voice (c.post (.cancelPiece id))) (voice c') := htry hex
      exact htalks
    · cases hex; exact .refl
  | keepAlive =>
    dsimp only [execute] at hex
    have hspeak : voice (c.send .keepAlive) = (voice c).speak .keepAlive := voice_send _ _
    split_ifs at hex
    · have htalks := htry hex
      rw [hspeak] at htalks
      exact .head .keepAlive htalks
    · cases hex
      rw [hspeak]
      exact .single .keepAlive
    · cases hex; exact .refl
  | read => cases hex; exact .refl
  | timeoutFired => cases hex; exact .refl
  | cancelOperation => cases hex; exact .refl

theorem voice_onMessage (cfg : Config) (r : ℕ) (m : Master) (c : Client) (msg : Message) :
    voice (onMessage cfg r m c msg).2 = voice (handleResponse cfg r m c msg).2 := by
  have hread : ∀ c' : Client, voice (doReadHeader c') = voice c' := by
    intro c'
    unfold doReadHeader
    split_ifs <;> rfl
  cases msg with
  | keepAlive => rfl
  | _ => exact hread _

/-! ### What is kept -/

theorem isDisconnected_speak (msg : Message) (v : Voice) :
    (v.speak msg).isDisconnected = v.isDisconnected := by
  unfold Voice.speak
  split_ifs <;> rfl

theorem isDisconnected_talk {v v' : Voice} (h : Talk total bits v v') :
    v'.isDisconnected = v.isDisconnected := by
  cases h with
  | drops => rfl
  | chooses => rfl
  | _ => exact isDisconnected_speak _ _

theorem isDisconnected_talks {v v' : Voice} (h : Talks total bits v v') :
    v'.isDisconnected = v.isDisconnected := by
  induction h with
  | refl => rfl
  | tail _ hstep ih => exact (isDisconnected_talk hstep).trans ih

/-! ### The messages that are added -/

/-- The messages a client sends on its own: it offers nothing and brings no block. -/
def isTalk : Message → Bool
  | .have_ _ | .bitfield _ | .piece _ _ _ => false
  | _ => true

theorem sent_speak {P : Message → Prop} {msg : Message} (v : Voice) (hmsg : P msg) :
    Extends P v.sent (v.speak msg).sent := by
  unfold Voice.speak
  split_ifs
  · exact .refl P _
  · exact extends_concat _ hmsg

theorem sent_talk {v v' : Voice} (h : Talk total bits v v') :
    Extends (isTalk · = true) v.sent v'.sent := by
  cases h with
  | keepAlive => exact sent_speak v rfl
  | cancels => exact sent_speak v rfl
  | drops => exact .refl _ _
  | notInterested => exact sent_speak { v with amInterested := false } rfl
  | interested => exact sent_speak { v with amInterested := true } rfl
  | chooses => exact .refl _ _
  | requests => exact sent_speak v rfl
  | unchokes => exact sent_speak { v with amChoking := false } rfl
  | chokes => exact sent_speak { v with amChoking := true } rfl

theorem sent_talks {v v' : Voice} (h : Talks total bits v v') :
    Extends (isTalk · = true) v.sent v'.sent := by
  induction h with
  | refl => exact .refl _ _
  | tail _ hstep ih => exact ih.trans (sent_talk hstep)

/-! ### Steps of the swarm -/

/-- The handlers that a handler or a worker thread can queue, and not the socket. -/
def isPosted : Handler → Bool
  | .message _ | .disconnect => false
  | _ => true

/-- Only such handlers are queued. -/
abbrev Posts : List Handler → List Handler → Prop := Extends (isPosted · = true)

theorem posts_postIfSubscribed {before : List Handler} {c : Core} {h : Handler}
    (hp : Posts before c.strand) (hh : isPosted h = true) :
    Posts before (c.postIfSubscribed h).strand := by
  unfold Core.postIfSubscribed
  split_ifs
  · exact hp
  · exact hp.trans (extends_concat _ hh)

theorem posts_disconnect (c : Core) : Posts c.strand c.disconnect.strand := by
  unfold Core.disconnect
  split_ifs
  · exact .refl _ _
  · exact extends_concat _ rfl

theorem strand_attempt {cfg : Config} {m m' : Master} {c c' : Core} (h : Attempt cfg m c m' c') :
    c'.strand = c.strand := by
  cases h with
  | keeps => rfl
  | chooses => rfl

theorem posts_response {cfg : Config} {m m' : Master} {c c' : Core} {rejected : Message → Bool}
    {msg : Message} (h : Response cfg m c rejected msg m' c') : Posts c.strand c'.strand := by
  cases h with
  | ignores => exact .refl _ _
  | choke => exact extends_concat _ rfl
  | unchoke h => exact strand_attempt h ▸ .refl _ _
  | offer hmsg h => exact strand_attempt h ▸ .refl _ _
  | rejects => exact posts_disconnect c
  | cancels => exact extends_concat _ rfl
  | accepts => exact extends_concat _ rfl

theorem posts_act {cfg : Config} {m m' : Master} {c c' : Core} {rejected : Message → Bool} {h : Handler}
    (hact : Act cfg m c rejected h m' c') : Posts c.strand c'.strand := by
  cases hact with
  | message h => exact posts_postIfSubscribed (posts_response h) rfl
  | completes => exact extends_concat _ rfl
  | clearAndTry h => exact strand_attempt h ▸ .refl _ _
  | timeoutFired => exact extends_concat _ rfl
  | pieceTimeout =>
    have htold : Posts c.strand (c.postIfSubscribed .tryToRequest).strand :=
      posts_postIfSubscribed (.refl _ _) rfl
    split_ifs
    · exact htold
    · exact htold.trans (extends_concat _ rfl)
  | tryToRequest h => exact strand_attempt h ▸ .refl _ _
  | cancelIfActive => exact extends_concat _ rfl
  | keepAlive h => exact strand_attempt h ▸ .refl _ _
  | disconnect => exact posts_disconnect c
  | _ => exact .refl _ _

theorem posts_told {cfg : Config} {c c' : Core} (h : Told cfg c c') : Posts c.strand c'.strand := by
  cases h with
  | nothing => exact .refl _ _
  | tryToRequest => exact extends_concat _ rfl
  | cancelIfActive => exact extends_concat _ rfl

variable {n : ℕ}

/-- The handlers that an event takes from the strand of a client. -/
def taken (p : Fin n) : Event n → ℕ
  | .run q _ => if p = q then 1 else 0
  | _ => 0

/-- What the socket of a client queues on its strand. -/
def brought (p : Fin n) : Event n → List Handler
  | .arrive q msg => if p = q then [.message msg] else []
  | .fail q => if p = q then [.disconnect] else []
  | _ => []

/-- **What a step does to the strand of a client.** -/
theorem strand_step {cfg : Config} {s s' : State n} {e : Event n} (h : step cfg s e = some s')
    (p : Fin n) : Posts ((s.clients p).strand.drop (taken p e) ++ brought p e) (s'.clients p).strand := by
  have hset : ∀ {q : Fin n} {c : Client} {hd : Handler},
      c.strand = (s.clients q).strand ++ [hd] → p ≠ q ∨ isPosted hd = true →
      Posts ((s.clients p).strand ++ []) ((s.set q c).clients p).strand := by
    intro q c hd hc hor
    rw [List.append_nil]
    by_cases hq : p = q
    · subst hq
      have hclient : (s.set p c).clients p = c := Function.update_self ..
      rw [hclient, hc]
      exact extends_concat _ (hor.resolve_left fun hne => hne rfl)
    · have hclient : (s.set q c).clients p = s.clients p := Function.update_of_ne hq ..
      rw [hclient]
      exact .refl _ _
  have hself : ∀ {c : Client}, (s.set p c).clients p = c := fun {c} => Function.update_self ..
  cases e with
  | arrive q msg =>
    dsimp only [step] at h
    split_ifs at h
    cases h
    dsimp only [brought]
    split_ifs with hq
    · subst hq
      rw [hself]
      exact .refl _ _
    · exact hset rfl (.inl hq)
  | expire q =>
    dsimp only [step] at h
    split_ifs at h
    cases h
    exact hset rfl (.inr rfl)
  | keepAlive q => cases h; exact hset rfl (.inr rfl)
  | fail q =>
    cases h
    dsimp only [brought]
    split_ifs with hq
    · subst hq
      rw [hself]
      exact .refl _ _
    · exact hset rfl (.inl hq)
  | run q r =>
    dsimp only [brought]
    rw [List.append_nil]
    cases step_moves h with
    | queues _ _ _ _ _ he => cases he
    | run _ _ hd rest hstrand hact hothers =>
      dsimp only [taken]
      split_ifs with hq
      · subst hq
        rw [hstrand]
        exact posts_act hact
      · exact posts_told (hothers p hq)
  | work k sorted =>
    dsimp only [brought]
    rw [List.append_nil]
    cases step_moves h with
    | queues _ _ _ _ _ he => cases he
    | invalid _ _ _ _ _ _ hcores =>
      have hstrand : (s'.clients p).strand = (s.clients p).strand := congrArg Core.strand (hcores p)
      rw [hstrand]
      exact .refl _ _
    | valid _ _ _ _ _ _ _ hcores => exact posts_told (hcores p)

/-- **What a step does to the voice of a client** and to the pieces that are done. -/
inductive Speaks (cfg : Config) (s : State n) (p : Fin n) : Event n → State n → Prop
  | silent {e : Event n} {s' : State n} (htaken : taken p e = 0)
      (hvoice : voice (s'.clients p) = voice (s.clients p))
      (hbits : s'.master.bitfield = s.master.bitfield) : Speaks cfg s p e s'
  | runs {s' : State n} (r : ℕ) (h : Handler) (rest : List Handler) (m' : Master) (c' : Client)
      (hstrand : (s.clients p).strand = h :: rest)
      (hex : execute cfg r s.master { s.clients p with strand := rest } h = some (m', c'))
      (hvoice : voice (s'.clients p) = voice c')
      (hbits : s'.master.bitfield = s.master.bitfield) : Speaks cfg s p (.run p r) s'
  | works {s' : State n} (k : ℕ) (sorted : List Block) (req : WriteRequest)
      (hreq : s.master.jobs[k]? = some req)
      (hvoice : voice (s'.clients p) = voice (s.clients p) ∨
        voice (s'.clients p) = (voice (s.clients p)).speak (.have_ (req.pieceIndex % 2 ^ 32)))
      (hbits : s'.master.bitfield = insert req.pieceIndex s.master.bitfield) :
      Speaks cfg s p (.work k sorted) s'

theorem voice_set {q : Fin n} {c : Client} (s : State n) (p : Fin n)
    (hc : voice c = voice (s.clients q)) : voice ((s.set q c).clients p) = voice (s.clients p) := by
  by_cases hq : p = q
  · subst hq
    have hclient : (s.set p c).clients p = c := Function.update_self ..
    rw [hclient, hc]
  · have hclient : (s.set q c).clients p = s.clients p := Function.update_of_ne hq ..
    rw [hclient]

theorem voice_setPiece (cfg : Config) (i : ℕ) (s : State n) (p : Fin n) :
    voice ((setPiece cfg i s).clients p) = voice (s.clients p) ∨
      voice ((setPiece cfg i s).clients p) = (voice (s.clients p)).speak (.have_ (i % 2 ^ 32)) := by
  have hdownloaded : ∀ t : State n,
      voice ((onPieceDownloaded cfg i t).clients p) = voice (t.clients p) := by
    intro t
    unfold onPieceDownloaded
    dsimp only
    split_ifs
    · exact voice_postIfSubscribed _ _
    all_goals rfl
  unfold setPiece
  rw [hdownloaded]
  dsimp only [sendHaveToAll]
  split_ifs
  · exact .inr (voice_send _ _)
  · exact .inl rfl

theorem speaks_step {cfg : Config} {s s' : State n} {e : Event n} (h : step cfg s e = some s')
    (p : Fin n) : Speaks cfg s p e s' := by
  cases e with
  | arrive q msg =>
    dsimp only [step] at h
    split_ifs at h
    cases h
    exact .silent rfl (voice_set s p rfl) rfl
  | expire q =>
    dsimp only [step] at h
    split_ifs at h
    cases h
    exact .silent rfl (voice_set s p rfl) rfl
  | keepAlive q => cases h; exact .silent rfl (voice_set s p rfl) rfl
  | fail q => cases h; exact .silent rfl (voice_set s p rfl) rfl
  | run q r =>
    have hbits : s'.master.bitfield = s.master.bitfield := by
      cases step_moves h with
      | queues _ _ _ _ _ he => cases he
      | run _ _ _ _ _ hact => exact (act_master hact).1
    dsimp only [step, runFirst] at h
    cases hstrand : (s.clients q).strand with
    | nil => rw [hstrand] at h; cases h
    | cons hd rest =>
      rw [hstrand] at h
      obtain ⟨⟨m', c'⟩, hex, heq⟩ := Option.map_eq_some_iff.mp h
      have hvoice : voice (s'.clients p) = voice ((s.set q c').clients p) := by
        rw [← heq]
        dsimp only
        split_ifs
        · dsimp only [tryToRequestAgain]
          split_ifs
          · rfl
          · exact voice_postIfSubscribed _ _
        · rfl
      by_cases hq : p = q
      · subst hq
        have hclient : (s.set p c').clients p = c' := Function.update_self ..
        rw [hclient] at hvoice
        exact .runs r hd rest m' c' hstrand hex hvoice hbits
      · have hclient : (s.set q c').clients p = s.clients p := Function.update_of_ne hq ..
        rw [hclient] at hvoice
        exact .silent (if_neg hq) hvoice hbits
  | work k sorted =>
    dsimp only [step] at h
    cases hreq : s.master.jobs[k]? with
    | none => rw [hreq] at h; cases h
    | some req =>
      rw [hreq] at h
      dsimp only [downloadPiece] at h
      split_ifs at h with hsort hvalid
      · split at h
        · cases h
        · next disk hwrite =>
          have hbits' : s'.master.bitfield = insert req.pieceIndex s.master.bitfield := by
            cases h
            exact (setPiece_spec cfg req.pieceIndex _).2.1
          refine .works k sorted req hreq ?_ hbits'
          cases h
          exact voice_setPiece cfg req.pieceIndex { s with
            master := { s.master with jobs := s.master.jobs.eraseIdx k }, disk := disk } p
      · cases h
        exact .silent rfl rfl rfl

end CppTorrent.Swarm.Voices
