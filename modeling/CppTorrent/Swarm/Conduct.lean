import CppTorrent.Swarm.Voices

/-! # How a client behaves towards the other side

`Polite` holds between what a client has handled, its voice, and the pieces that are done. It is about
one side of a connection only, and makes no assumption on the other one: whatever is heard, a client
requests pieces only while it has said that it is interested, and after it has been unchoked; it says
that it is not interested when it needs nothing more, and then never requests again; and it chokes only a
peer that has said so. `Truthful` adds what a client says about pieces.

Both are kept by every step of a voice (`Polite.talk`, `Truthful.talk`), by every message that is heard
(`Polite.hears`, `Truthful.hears`) and when a piece is done. -/

namespace CppTorrent.Swarm.Conduct

open CppTorrent.Lib.History
open CppTorrent.Swarm.Model CppTorrent.Swarm.Steps CppTorrent.Swarm.Voices

/-- What a message says about the interest of its sender. -/
def interest : Message → Option Bool
  | .interested => some true
  | .notInterested => some false
  | _ => none

/-- What a message says about whether its sender chokes. -/
def choking : Message → Option Bool
  | .choke => some true
  | .unchoke => some false
  | _ => none

/-- The message asks for a block. -/
def isRequest : Message → Bool
  | .request _ _ _ => true
  | _ => false

theorem mem_of_interest {ms : List Message} {b : Bool} (h : ∃ msg ∈ ms, interest msg = some b) :
    (if b then Message.interested else .notInterested) ∈ ms := by
  obtain ⟨msg, hmem, hmsg⟩ := h
  cases msg <;> cases hmsg <;> exact hmem

theorem mem_of_choking {ms : List Message} {b : Bool} (h : ∃ msg ∈ ms, choking msg = some b) :
    (if b then Message.choke else .unchoke) ∈ ms := by
  obtain ⟨msg, hmem, hmsg⟩ := h
  cases msg <;> cases hmsg <;> exact hmem

/-- A message that fits to those its sender has sent before. -/
def Fits (total : ℕ) (before : List Message) : Message → Prop
  | .request i _ _ => i < total ∧ told interest false before = true ∧ .notInterested ∉ before
  | .bitfield payload => payload.length ≤ (total + 7) / 8
  | .piece i _ _ => i < total
  | .cancel i _ _ => i < total
  | .invalid => False
  | _ => True

/-- **The conduct of a client** that has heard these messages. -/
structure Polite (total : ℕ) (bits : Finset ℕ) (v : Voice) (heard : List Message) : Prop where
  fits : Each (Fits total) v.sent
  piece_lt : ∀ i, v.piece = some i → i < total
  interested_of_piece : v.piece ≠ none → v.amInterested = true
  unchoke_of_piece : v.piece ≠ none → .unchoke ∈ heard
  unchoke_of_request : (∃ msg ∈ v.sent, isRequest msg = true) → .unchoke ∈ heard
  all_of_notInterested : .notInterested ∈ v.sent → bits.card = total ∧ v.piece = none
  amInterested : v.isDisconnected = false → told interest false v.sent = v.amInterested
  amChoking : v.isDisconnected = false → told choking true v.sent = v.amChoking
  /-- only a peer that has said it is interested is unchoked -/
  unchoked : v.amChoking = false → .interested ∈ heard
  /-- only a peer that has said it is not interested any more is choked again -/
  choked : v.amChoking = true → .unchoke ∉ v.sent ∨ .notInterested ∈ heard
  peerInterested : told interest false heard = v.peerInterested
  peerChoking : told choking true heard = v.peerChoking

/-- A message is sent that changes the flag it is about. -/
def Voice.tells (msg : Message) (v : Voice) : Voice :=
  Voice.speak msg { v with
    amChoking := (choking msg).getD v.amChoking
    amInterested := (interest msg).getD v.amInterested }

variable {total : ℕ} {bits : Finset ℕ} {v v' : Voice} {heard : List Message}

/-- What holds of the messages sent holds after one more. -/
theorem tells_sent (msg : Message) (v : Voice) :
    (v.isDisconnected = true ∧ (Voice.tells msg v).sent = v.sent) ∨
      (v.isDisconnected = false ∧ (Voice.tells msg v).sent = v.sent ++ [msg]) := by
  unfold Voice.tells Voice.speak
  cases h : v.isDisconnected with
  | true => exact .inl ⟨rfl, by simp⟩
  | false => exact .inr ⟨rfl, by simp⟩

theorem tells_fields (msg : Message) (v : Voice) :
    (Voice.tells msg v).isDisconnected = v.isDisconnected ∧
      (Voice.tells msg v).amChoking = (choking msg).getD v.amChoking ∧
      (Voice.tells msg v).amInterested = (interest msg).getD v.amInterested ∧
      (Voice.tells msg v).peerChoking = v.peerChoking ∧
      (Voice.tells msg v).peerInterested = v.peerInterested ∧
      (Voice.tells msg v).piece = v.piece ∧ (Voice.tells msg v).pieces = v.pieces := by
  unfold Voice.tells Voice.speak
  split_ifs
  all_goals exact ⟨rfl, rfl, rfl, rfl, rfl, rfl, rfl⟩

/-- What has been sent after a message is what had been sent before it, or the message. -/
theorem mem_tells {msg m : Message} (h : m ∈ (Voice.tells msg v).sent) : m ∈ v.sent ∨ m = msg := by
  rcases tells_sent msg v with ⟨-, hsent⟩ | ⟨-, hsent⟩
  · exact .inl (hsent ▸ h)
  · rw [hsent] at h
    exact (List.mem_append.mp h).imp_right List.mem_singleton.mp

/-- **A message is sent.** It has to fit; what it says has to be so. -/
theorem Polite.tells (h : Polite total bits v heard) (msg : Message)
    (hfits : v.isDisconnected = false → Fits total v.sent msg)
    (hrequest : isRequest msg = true → .unchoke ∈ heard)
    (hdone : msg = .notInterested → bits.card = total ∧ v.piece = none)
    (hunchoke : msg = .unchoke → .interested ∈ heard)
    (hchoke : msg = .choke → .notInterested ∈ heard) :
    Polite total bits (Voice.tells msg v) heard := by
  obtain ⟨hdisc, hchoking, hinterested, hpeer, hpeer', hpiece, -⟩ := tells_fields msg v
  refine
    { fits := ?_
      piece_lt := fun i hi => h.piece_lt i (hpiece ▸ hi)
      interested_of_piece := ?_
      unchoke_of_piece := fun hp => h.unchoke_of_piece (hpiece ▸ hp)
      unchoke_of_request := ?_
      all_of_notInterested := ?_
      amInterested := ?_
      amChoking := ?_
      unchoked := ?_
      choked := ?_
      peerInterested := hpeer'.symm ▸ h.peerInterested
      peerChoking := hpeer.symm ▸ h.peerChoking }
  · rcases tells_sent msg v with ⟨-, hsent⟩ | ⟨hc, hsent⟩
    · exact hsent ▸ h.fits
    · exact hsent ▸ each_concat.mpr ⟨h.fits, hfits hc⟩
  · intro hp
    rw [hpiece] at hp
    rw [hinterested]
    cases hmsg : interest msg with
    | none => exact h.interested_of_piece hp
    | some b =>
      cases b with
      | true => rfl
      | false =>
        have hnot : msg = .notInterested := by cases msg <;> first | rfl | cases hmsg
        exact absurd (hdone hnot).2 hp
  · rintro ⟨m, hmem, hm⟩
    rcases mem_tells hmem with hmem | rfl
    · exact h.unchoke_of_request ⟨m, hmem, hm⟩
    · exact hrequest hm
  · intro hmem
    rw [hpiece]
    rcases mem_tells hmem with hmem | hmsg
    · exact h.all_of_notInterested hmem
    · exact hdone hmsg.symm
  · intro hc
    rw [hdisc] at hc
    rcases tells_sent msg v with ⟨hc', -⟩ | ⟨-, hsent⟩
    · rw [hc] at hc'
      cases hc'
    · rw [hsent, told_concat, hinterested, h.amInterested hc]
  · intro hc
    rw [hdisc] at hc
    rcases tells_sent msg v with ⟨hc', -⟩ | ⟨-, hsent⟩
    · rw [hc] at hc'
      cases hc'
    · rw [hsent, told_concat, hchoking, h.amChoking hc]
  · intro hc
    rw [hchoking] at hc
    cases hmsg : choking msg with
    | none => exact h.unchoked (by rwa [hmsg] at hc)
    | some b =>
      rw [hmsg] at hc
      cases b with
      | true => cases hc
      | false => exact hunchoke (by cases msg <;> first | rfl | cases hmsg)
  · intro hc
    rw [hchoking] at hc
    cases hmsg : choking msg with
    | none =>
      rw [hmsg] at hc
      refine (h.choked hc).imp_left fun hnot hmem => ?_
      rcases mem_tells hmem with hmem | rfl
      · exact hnot hmem
      · cases hmsg
    | some b =>
      rw [hmsg] at hc
      cases b with
      | true => exact .inr (hchoke (by cases msg <;> first | rfl | cases hmsg))
      | false => cases hc

theorem Polite.withPiece {piece : Option ℕ} (h : Polite total bits v heard)
    (hpiece : ∀ i, piece = some i → i < total ∧ v.amInterested = true ∧ .unchoke ∈ heard ∧
      .notInterested ∉ v.sent) : Polite total bits (v.withPiece piece) heard := by
  refine { h with
    piece_lt := fun i hi => (hpiece i hi).1
    interested_of_piece := fun hp => ?_
    unchoke_of_piece := fun hp => ?_
    all_of_notInterested := fun hmem => ⟨(h.all_of_notInterested hmem).1, ?_⟩ }
  · obtain ⟨i, hi⟩ := Option.ne_none_iff_exists'.mp hp
    exact (hpiece i hi).2.1
  · obtain ⟨i, hi⟩ := Option.ne_none_iff_exists'.mp hp
    exact (hpiece i hi).2.2.1
  · exact Option.eq_none_iff_forall_ne_some.mpr fun i hi => (hpiece i hi).2.2.2 hmem

theorem Polite.unchoke_mem (h : Polite total bits v heard) (hpeer : v.peerChoking = false) :
    .unchoke ∈ heard := by
  have htold := h.peerChoking.trans hpeer
  have hchanged : told choking true heard ≠ true := by simp [htold]
  obtain ⟨msg, hmem, hmsg⟩ := exists_of_told hchanged
  rw [htold] at hmsg
  exact mem_of_choking ⟨msg, hmem, hmsg⟩

theorem Polite.interested_mem (h : Polite total bits v heard) (hpeer : v.peerInterested = true) :
    .interested ∈ heard := by
  have htold := h.peerInterested.trans hpeer
  have hchanged : told interest false heard ≠ false := by simp [htold]
  obtain ⟨msg, hmem, hmsg⟩ := exists_of_told hchanged
  rw [htold] at hmsg
  exact mem_of_interest ⟨msg, hmem, hmsg⟩

/-- **What a client does on its own keeps its conduct.** -/
theorem Polite.talk (h : Polite total bits v heard) (ht : Talk total bits v v') :
    Polite total bits v' heard := by
  have hmod : ∀ {i : ℕ}, i < total → i % 2 ^ 32 < total := fun hi => (Nat.mod_le _ _).trans_lt hi
  cases ht with
  | keepAlive =>
    exact h.tells .keepAlive (fun _ => trivial) nofun nofun nofun nofun
  | cancels i begin_ length hpiece =>
    exact h.tells (.cancel _ _ _) (fun _ => hmod (h.piece_lt i hpiece)) nofun nofun nofun nofun
  | drops => exact h.withPiece nofun
  | notInterested hnone hall =>
    exact h.tells .notInterested (fun _ => trivial) nofun (fun _ => ⟨hall, hnone⟩) nofun nofun
  | interested => exact h.tells .interested (fun _ => trivial) nofun nofun nofun nofun
  | chooses i hnone hmore hchoke hinterested hi hpieces =>
    refine h.withPiece fun j hj => ?_
    obtain rfl := Option.some.inj hj
    exact ⟨hmod hi, hinterested, h.unchoke_mem hchoke, fun hmem => hmore (h.all_of_notInterested hmem).1⟩
  | requests i begin_ length hpiece =>
    have hsome : v.piece ≠ none := by simp [hpiece]
    refine h.tells (.request _ _ _) (fun hconnected => ⟨hmod (h.piece_lt i hpiece), ?_, ?_⟩)
      (fun _ => h.unchoke_of_piece hsome) nofun nofun nofun
    · rw [h.amInterested hconnected]
      exact h.interested_of_piece hsome
    · exact fun hmem => hsome (h.all_of_notInterested hmem).2
  | unchokes hconnected hpeer =>
    exact h.tells .unchoke (fun _ => trivial) nofun nofun (fun _ => h.interested_mem hpeer) nofun
  | chokes hchoking hpeer =>
    refine h.tells .choke (fun _ => trivial) nofun nofun nofun fun _ => ?_
    have hback : told interest false heard = false := h.peerInterested.trans hpeer
    exact mem_of_interest (exists_of_told_eq hback ⟨_, h.unchoked hchoking, true, rfl, by decide⟩)

theorem Polite.talks (h : Polite total bits v heard) (ht : Talks total bits v v') :
    Polite total bits v' heard := by
  induction ht with
  | refl => exact h
  | tail _ hstep ih => exact ih.talk hstep

theorem hears_fields (total : ℕ) (v : Voice) (msg : Message) :
    (v.hears total msg).isDisconnected = v.isDisconnected ∧
      (v.hears total msg).amChoking = v.amChoking ∧ (v.hears total msg).amInterested = v.amInterested ∧
      (v.hears total msg).piece = v.piece ∧ (v.hears total msg).sent = v.sent ∧
      (v.hears total msg).peerInterested = (interest msg).getD v.peerInterested ∧
      (v.hears total msg).peerChoking = (choking msg).getD v.peerChoking := by
  cases msg with
  | have_ i => dsimp only [Voice.hears]; split_ifs <;> exact ⟨rfl, rfl, rfl, rfl, rfl, rfl, rfl⟩
  | bitfield payload => dsimp only [Voice.hears]; split_ifs <;> exact ⟨rfl, rfl, rfl, rfl, rfl, rfl, rfl⟩
  | _ => exact ⟨rfl, rfl, rfl, rfl, rfl, rfl, rfl⟩

/-- **A message is heard**, whatever it is. -/
theorem Polite.hears (h : Polite total bits v heard) (msg : Message) :
    Polite total bits (v.hears total msg) (heard ++ [msg]) := by
  obtain ⟨hdisc, hchoking, hinterested, hpiece, hsent, hpeer, hpeer'⟩ := hears_fields total v msg
  have hmem : ∀ {m : Message}, m ∈ heard → m ∈ heard ++ [msg] := List.mem_append_left _
  constructor
  · exact hsent ▸ h.fits
  · exact hpiece ▸ h.piece_lt
  · rw [hpiece, hinterested]
    exact h.interested_of_piece
  · exact fun hp => hmem (h.unchoke_of_piece (hpiece ▸ hp))
  · exact fun hreq => hmem (h.unchoke_of_request (hsent ▸ hreq))
  · rw [hsent, hpiece]
    exact h.all_of_notInterested
  · rw [hdisc, hsent, hinterested]
    exact h.amInterested
  · rw [hdisc, hsent, hchoking]
    exact h.amChoking
  · exact fun hc => hmem (h.unchoked (hchoking ▸ hc))
  · rw [hchoking, hsent]
    exact fun hc => (h.choked hc).imp_right hmem
  · rw [told_concat, h.peerInterested, hpeer]
  · rw [told_concat, h.peerChoking, hpeer']

theorem Polite.disconnect (h : Polite total bits v heard) : Polite total bits v.disconnect heard :=
  { h with amInterested := nofun, amChoking := nofun }

/-- **Pieces are done.** -/
theorem Polite.have_ {bits' : Finset ℕ} (h : Polite total bits v heard) (hsub : bits ⊆ bits')
    (hrange : bits' ⊆ Finset.range total) : Polite total bits' v heard := by
  refine { h with all_of_notInterested := fun hmem => ?_ }
  obtain ⟨hall, hnone⟩ := h.all_of_notInterested hmem
  have hle := Finset.card_le_card hsub
  have hge := Finset.card_le_card hrange
  rw [Finset.card_range] at hge
  exact ⟨by omega, hnone⟩

/-! ### Interest is answered -/

/-- An interested peer is not choked. -/
def Answered (v : Voice) : Prop :=
  v.isDisconnected = false → v.peerInterested = true → v.amChoking = false

theorem Answered.speak {msg : Message} (h : Answered v) : Answered (v.speak msg) := by
  unfold Voice.speak
  split_ifs
  all_goals exact h

theorem Answered.talk (h : Answered v) (ht : Talk total bits v v') : Answered v' := by
  cases ht with
  | keepAlive => exact h.speak
  | cancels => exact h.speak
  | drops => exact h
  | notInterested => exact Answered.speak (v := { v with amInterested := false }) h
  | interested => exact Answered.speak (v := { v with amInterested := true }) h
  | chooses => exact h
  | requests => exact h.speak
  | unchokes => exact Answered.speak (v := { v with amChoking := false }) fun _ _ => rfl
  | chokes hchoking hpeer =>
    refine Answered.speak (v := { v with amChoking := true }) fun _ hpeer' => ?_
    rw [hpeer] at hpeer'
    cases hpeer'

theorem Answered.talks (h : Answered v) (ht : Talks total bits v v') : Answered v' := by
  induction ht with
  | refl => exact h
  | tail _ hstep ih => exact ih.talk hstep

theorem Answered.hears {msg : Message} (h : Answered v) (hmsg : msg ≠ .interested) :
    Answered (v.hears total msg) := by
  obtain ⟨hdisc, hchoking, -, -, -, hpeer, -⟩ := hears_fields total v msg
  unfold Answered
  rw [hdisc, hchoking, hpeer]
  cases msg with
  | interested => exact absurd rfl hmsg
  | notInterested => exact nofun
  | _ => exact h

/-- **Interest is answered** where it is said. -/
theorem answered_handleResponse {cfg : Config} {r : ℕ} {m : Master} {c : Client} {msg : Message}
    (haccept : rejects cfg c msg = false) (h : Answered (voice c)) :
    Answered (voice (handleResponse cfg r m c msg).2) := by
  by_cases hmsg : msg = .interested
  · subst hmsg
    dsimp only [handleResponse]
    set c1 : Client := { c with peerInterested := true }
    have hunchoked : Answered
        (voice (if c.amChoking = true ∧ ¬c.isDisconnected = true then sendUnchoke c1 else c1)) := by
      split_ifs with hc
      · rw [sendUnchoke, voice_send]
        exact Answered.speak fun _ _ => rfl
      · intro hconnected _
        have hconnected' : c.isDisconnected = false := hconnected
        show c.amChoking = false
        simpa [hconnected'] using hc
    split_ifs at hunchoked ⊢
    all_goals first
      | exact hunchoked
      | exact hunchoked.talks (talks_tryToRequestPiece cfg r m _)
  · exact (h.hears hmsg).talks (talks_handleResponse cfg r m c msg haccept)

/-! ### What is said about pieces -/

/-- The pieces that a message says its sender has. -/
def offered (total : ℕ) : Message → Finset ℕ
  | .have_ i => if i < total then {i} else ∅
  | .bitfield payload => bitsOf total payload
  | _ => ∅

theorem lt_of_mem_offered {i : ℕ} {msg : Message} (h : i ∈ offered total msg) : i < total := by
  cases msg with
  | have_ j =>
    dsimp only [offered] at h
    split_ifs at h with hj
    · exact Finset.mem_singleton.mp h ▸ hj
    · exact absurd h (Finset.notMem_empty i)
  | bitfield payload => exact Finset.mem_range.mp (Finset.mem_filter.mp h).1
  | _ => exact absurd h (Finset.notMem_empty i)

/-- **A client tells the truth about its pieces**, and asks only for what it has been offered. -/
structure Truthful (total : ℕ) (bits : Finset ℕ) (v : Voice) (heard : List Message) : Prop where
  offers : ∀ msg ∈ v.sent, offered total msg ⊆ bits
  pieces : ∀ i ∈ v.pieces, ∃ msg ∈ heard, i ∈ offered total msg
  piece : ∀ i, v.piece = some i → i ∈ v.pieces
  requests : ∀ i begin_ length, .request i begin_ length ∈ v.sent → i ∈ v.pieces

theorem Truthful.lt (h : Truthful total bits v heard) {i : ℕ} (hi : i ∈ v.pieces) : i < total := by
  obtain ⟨msg, -, hmsg⟩ := h.pieces i hi
  exact lt_of_mem_offered hmsg

/-- **A message is sent** that offers what is done, and asks for what the other side has. -/
theorem Truthful.tells (h : Truthful total bits v heard) (msg : Message)
    (hoffers : offered total msg ⊆ bits)
    (hrequest : ∀ i begin_ length, msg = .request i begin_ length → i ∈ v.pieces) :
    Truthful total bits (Voice.tells msg v) heard := by
  obtain ⟨-, -, -, -, -, hpiece, hpieces⟩ := tells_fields msg v
  constructor
  · intro m hmem
    rcases mem_tells hmem with hmem | rfl
    · exact h.offers m hmem
    · exact hoffers
  · exact hpieces ▸ h.pieces
  · rw [hpiece, hpieces]
    exact h.piece
  · intro i begin_ length hmem
    rw [hpieces]
    rcases mem_tells hmem with hmem | hmsg
    · exact h.requests i begin_ length hmem
    · exact hrequest i begin_ length hmsg.symm

/-- **What a client does on its own keeps it truthful**, if the numbers of the pieces have 32 bits. -/
theorem Truthful.talk (htotal : total ≤ 2 ^ 32) (h : Truthful total bits v heard)
    (ht : Talk total bits v v') : Truthful total bits v' heard := by
  have hmod : ∀ {i : ℕ}, i ∈ v.pieces → i % 2 ^ 32 ∈ v.pieces := fun hi => by
    rwa [Nat.mod_eq_of_lt ((h.lt hi).trans_le htotal)]
  have hempty : ∅ ⊆ bits := Finset.empty_subset bits
  cases ht with
  | keepAlive => exact h.tells .keepAlive hempty nofun
  | cancels => exact h.tells (.cancel _ _ _) hempty nofun
  | drops => exact { h with piece := nofun }
  | notInterested => exact h.tells .notInterested hempty nofun
  | interested => exact h.tells .interested hempty nofun
  | chooses i hnone hmore hchoke hinterested hi hpieces =>
    refine { h with piece := fun j hj => ?_ }
    obtain rfl := Option.some.inj hj
    exact hmod hpieces
  | requests i begin_ length hpiece =>
    refine h.tells (.request _ _ _) hempty fun j begin' length' hmsg => ?_
    obtain ⟨rfl, -, -⟩ := Message.request.inj hmsg
    exact hmod (h.piece i hpiece)
  | unchokes => exact h.tells .unchoke hempty nofun
  | chokes => exact h.tells .choke hempty nofun

theorem Truthful.talks (htotal : total ≤ 2 ^ 32) (h : Truthful total bits v heard)
    (ht : Talks total bits v v') : Truthful total bits v' heard := by
  induction ht with
  | refl => exact h
  | tail _ hstep ih => exact ih.talk htotal hstep

/-- What is known of the pieces of the other side after a message. -/
theorem mem_pieces_hears {msg : Message} {i : ℕ} (h : i ∈ (v.hears total msg).pieces) :
    i ∈ v.pieces ∨ i ∈ offered total msg := by
  cases msg with
  | have_ j =>
    dsimp only [Voice.hears] at h
    split_ifs at h with hj
    · exact .inl h
    · dsimp only [offered]
      rw [if_pos (Nat.lt_of_not_le hj)]
      exact (Finset.mem_insert.mp h).symm.imp_right Finset.mem_singleton.mpr
  | bitfield payload =>
    dsimp only [Voice.hears] at h
    split_ifs at h
    · exact .inl h
    · exact Finset.mem_union.mp h
  | _ => exact .inl h

theorem pieces_subset_hears (total : ℕ) (v : Voice) (msg : Message) :
    v.pieces ⊆ (v.hears total msg).pieces := by
  cases msg with
  | have_ j =>
    dsimp only [Voice.hears]
    split_ifs
    · exact Finset.Subset.refl _
    · exact Finset.subset_insert _ _
  | bitfield payload =>
    dsimp only [Voice.hears]
    split_ifs
    · exact Finset.Subset.refl _
    · exact Finset.subset_union_left
  | _ => exact Finset.Subset.refl _

/-- **A message is heard**, whatever it is. -/
theorem Truthful.hears (h : Truthful total bits v heard) (msg : Message) :
    Truthful total bits (v.hears total msg) (heard ++ [msg]) := by
  obtain ⟨-, -, -, hpiece, hsent, -, -⟩ := hears_fields total v msg
  have hsub := pieces_subset_hears total v msg
  constructor
  · rw [hsent]
    exact h.offers
  · intro i hi
    rcases mem_pieces_hears hi with hi | hi
    · obtain ⟨m, hmem, hm⟩ := h.pieces i hi
      exact ⟨m, List.mem_append_left _ hmem, hm⟩
    · exact ⟨msg, List.mem_append_right _ List.mem_cons_self, hi⟩
  · rw [hpiece]
    exact fun i hi => hsub (h.piece i hi)
  · rw [hsent]
    exact fun i begin_ length hmem => hsub (h.requests i begin_ length hmem)

/-- **Pieces are done.** -/
theorem Truthful.have_ {bits' : Finset ℕ} (h : Truthful total bits v heard) (hsub : bits ⊆ bits') :
    Truthful total bits' v heard :=
  { h with offers := fun msg hmem => (h.offers msg hmem).trans hsub }

/-! ### The first message -/

/-- The byte of eight bits, the first one highest. -/
theorem sum_bits (bit : ℕ → Prop) [DecidablePred bit] :
    ((List.range 8).map fun x => if bit x then 2 ^ (7 - x) else 0).sum =
      Nat.ofBits fun k : Fin 8 => decide (bit (7 - k)) := by
  have hbit : ∀ x, (if bit x then 2 ^ (7 - x) else 0) = 2 ^ (7 - x) * (decide (bit x)).toNat := by
    intro x
    by_cases hx : bit x
    · simp [hx]
    · simp [hx]
  simp only [hbit, List.range_succ, List.range_zero, Nat.ofBits, Fin.foldr_succ, Fin.foldr_zero]
  simp
  omega

/-- **A bitfield is read as it was written.** -/
theorem mem_bitsOf_getCast {total : ℕ} {bits : Finset ℕ} {i : ℕ} :
    i ∈ bitsOf total (getCast total bits) ↔ i < total ∧ i ∈ bits := by
  have hbyte : i < total → (((getCast total bits).getD (i / 8) 0).toNat.testBit (7 - i % 8) = true ↔
      i ∈ bits) := by
    intro hi
    have hlt : i / 8 < (total + 7) / 8 := by omega
    have hget : (getCast total bits).getD (i / 8) 0 =
        UInt8.ofNat (Nat.ofBits fun k : Fin 8 => decide (8 * (i / 8) + (7 - k) ∈ bits)) := by
      rw [← sum_bits fun x => 8 * (i / 8) + x ∈ bits, List.getD_eq_getElem?_getD, getCast,
        List.getElem?_map, List.getElem?_range hlt]
      rfl
    have hsmall := Nat.ofBits_lt_two_pow fun k : Fin 8 => decide (8 * (i / 8) + (7 - k) ∈ bits)
    rw [hget, UInt8.toNat_ofNat', Nat.mod_eq_of_lt hsmall, Nat.testBit_ofBits_lt _ _ (by omega)]
    have hindex : 8 * (i / 8) + (7 - (7 - i % 8)) = i := by omega
    simp [hindex]
  unfold bitsOf
  rw [Finset.mem_filter, Finset.mem_range]
  exact and_congr_right hbyte

/-- The voice of a client after `access`. -/
def accessed (total : ℕ) (bits : Finset ℕ) : Voice where
  isDisconnected := false
  amChoking := true
  amInterested := false
  peerChoking := true
  peerInterested := false
  piece := none
  pieces := ∅
  sent := [.bitfield (getCast total bits)]

theorem polite_accessed (total : ℕ) (bits : Finset ℕ) : Polite total bits (accessed total bits) [] where
  fits := by
    have hlen : Fits total [] (.bitfield (getCast total bits)) := by simp [Fits, getCast]
    exact each_concat.mpr ⟨each_nil _, hlen⟩
  piece_lt := nofun
  interested_of_piece h := absurd rfl h
  unchoke_of_piece h := absurd rfl h
  unchoke_of_request := by
    rintro ⟨msg, hmem, hmsg⟩
    obtain rfl := List.mem_singleton.mp hmem
    cases hmsg
  all_of_notInterested h := by simp [accessed] at h
  amInterested _ := rfl
  amChoking _ := rfl
  unchoked := nofun
  choked _ := .inl (by simp [accessed])
  peerInterested := rfl
  peerChoking := rfl

theorem truthful_accessed (total : ℕ) (bits : Finset ℕ) :
    Truthful total bits (accessed total bits) [] where
  offers := by
    intro msg hmem i hi
    obtain rfl := List.mem_singleton.mp hmem
    exact (mem_bitsOf_getCast.mp hi).2
  pieces i hi := absurd hi (Finset.notMem_empty i)
  piece := nofun
  requests := by
    intro i begin_ length hmem
    cases List.mem_singleton.mp hmem

end CppTorrent.Swarm.Conduct
