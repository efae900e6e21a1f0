import CppTorrent.Swarm.Conduct
import CppTorrent.Swarm.Progress
import CppTorrent.Swarm.Requests

/-! # Two clients of this program

What happens on a connection that has this program on both ends. Each end is a client in a swarm of its
own: it has a torrent, other peers, worker threads and a disk, and all of these take their steps in any
order, with whatever the other peers send.

An end may receive any message. What the results are about are the runs in which it receives what the other
one has sent, frame by frame and in this order (`Delivers`). The connection is a stream, so this is so as long
as the sends of the two ends do not tear their frames (`Wire.SendQueue.run_inOrder`). An operation of the
socket may fail at any time, and the deadline of the connection may pass (`drop_timeout`); after that the
results that say so do not hold any more.

A `request` that is handled queues a read job if its piece is done (`OnRequest`), and a worker thread
that executes the job sends the block (`UploadBlock`, `OnBlockReadyToSend`). A `cancel` never finds its
job (`Upload.Cancel`), so it is left out.

The field `heard` only records the messages that have been handled, and `failed` whether an operation has
failed or the deadline has passed. -/

namespace CppTorrent.Swarm.TwoClients

open CppTorrent.Lib.Runs CppTorrent.Lib.History
open CppTorrent.Files.Blocks CppTorrent.Files.Storage
open CppTorrent.Swarm.Model CppTorrent.Swarm.Steps CppTorrent.Swarm.Voices CppTorrent.Swarm.Conduct
open CppTorrent.Swarm.Progress CppTorrent.Swarm.Requests

/-- One end of the connection, with `n` peers. -/
structure Side (n : ℕ) where
  swarm : State n
  /-- the read jobs that are queued: the piece, the offset and the length -/
  uploads : List (ℕ × ℕ × ℕ)
  /-- the messages of the other end that have been handled -/
  heard : List Message
  /-- whether an operation of the socket has failed, or the deadline of the connection has passed -/
  failed : Bool

/-- What does not change: the torrent, and which of the peers is the other end. -/
structure Local (n : ℕ) where
  cfg : Config
  peer : Fin n

/-- What can happen at one end. -/
inductive SideEvent (n : ℕ) where
  /-- a step of the swarm; a message of the other end arrives by `receive` only -/
  | swarm (e : Event n)
  /-- the read in progress is completed by a message on the connection with the other end -/
  | receive (msg : Message)
  /-- a worker thread executes a read job -/
  | serve (k : ℕ)

variable {n : ℕ}

/-- The client that is connected with the other end. -/
def Side.client (l : Local n) (s : Side n) : Client := s.swarm.clients l.peer

/-- The messages of a strand. -/
def messagesOf (strand : List Handler) : List Message :=
  strand.filterMap fun
    | .message msg => some msg
    | _ => none

/-- The messages of the other end that have arrived. -/
def Side.arrived (l : Local n) (s : Side n) : List Message :=
  s.heard ++ messagesOf (s.client l).strand

/-- The message that an event handles. -/
def handled (l : Local n) (s : State n) : Event n → List Message
  | .run q _ => if l.peer = q then messagesOf ((s.clients q).strand.take 1) else []
  | _ => []

/-- `OnRequest`, for a request that is not rejected: the job queued by `UploadPieceBlock`. -/
def jobsOf (l : Local n) (s : State n) (msg : Message) : List (ℕ × ℕ × ℕ) :=
  match requestOf msg with
  | none => []
  | some (index, begin_, length) =>
    if rejects l.cfg (s.clients l.peer) msg = false ∧ index ∈ s.master.bitfield then
      [(index, begin_, length)]
    else []

/-- Whether an event is a failure of the connection, or its deadline. -/
def fails (l : Local n) : Event n → Bool
  | .fail q => l.peer = q
  | _ => false

/-- Whether an event is a message of the other end. -/
def isArrival (l : Local n) : Event n → Bool
  | .arrive q _ => l.peer = q
  | _ => false

/-- One step at one end. -/
def sideStep (l : Local n) (s : Side n) : SideEvent n → Option (Side n)
  | .swarm e =>
    if isArrival l e then none
    else (step l.cfg s.swarm e).map fun swarm =>
      { swarm := swarm
        uploads := s.uploads ++ (handled l s.swarm e).flatMap (jobsOf l s.swarm)
        heard := s.heard ++ handled l s.swarm e
        failed := s.failed || fails l e }
  | .receive msg =>
    (step l.cfg s.swarm (.arrive l.peer msg)).map fun swarm => { s with swarm := swarm }
  | .serve k =>
    match s.uploads[k]? with
    | none => none
    | some (index, begin_, length) =>
      match readPieceBlockFromFile l.cfg.manager s.swarm.disk index begin_ length with
      | .error _ => none
      | .ok block =>
        let c := s.client l
        let c := if l.cfg.total ≤ index then disconnect c else c.send (.piece index begin_ block.data)
        some { s with swarm := s.swarm.set l.peer c, uploads := s.uploads.eraseIdx k }

/-- The two ends. -/
structure Link (m n : ℕ) where
  left : Side m
  right : Side n

/-- What can happen next. -/
inductive LinkEvent (m n : ℕ) where
  | left (e : SideEvent m)
  | right (e : SideEvent n)

variable {m : ℕ}

/-- One step at one of the ends. -/
def linkStep (l : Local m) (r : Local n) (s : Link m n) : LinkEvent m n → Option (Link m n)
  | .left e => (sideStep l s.left e).map fun side => { s with left := side }
  | .right e => (sideStep r s.right e).map fun side => { s with right := side }

/-- If the event is a message that is received, it is the next one that the other end has sent. -/
def IsNext (l : Local n) (sent : List Message) (s : Side n) : SideEvent n → Prop
  | .receive msg => sent[(s.arrived l).length]? = some msg
  | _ => True

instance (l : Local n) (sent : List Message) (s : Side n) :
    (e : SideEvent n) → Decidable (IsNext l sent s e)
  | .receive msg => inferInstanceAs (Decidable (sent[(s.arrived l).length]? = some msg))
  | .swarm _ => .isTrue trivial
  | .serve _ => .isTrue trivial

/-- **The connection delivers** what has been sent, frame by frame and in this order. -/
def Delivers (l : Local m) (r : Local n) (s : Link m n) : LinkEvent m n → Prop
  | .left e => IsNext l (s.right.client r).sent s.left e
  | .right e => IsNext r (s.left.client l).sent s.right e

instance (l : Local m) (r : Local n) (s : Link m n) : (e : LinkEvent m n) → Decidable (Delivers l r s e)
  | .left e => inferInstanceAs (Decidable (IsNext l (s.right.client r).sent s.left e))
  | .right e => inferInstanceAs (Decidable (IsNext r (s.left.client l).sent s.right e))

/-- One end when the connection has been made: its client is as `access` leaves it. -/
structure Accessed (l : Local n) (s : Side n) : Prop where
  inRange : InRange l.cfg s.swarm
  client : s.client l =
    { access l.cfg with sent := [.bitfield (getCast l.cfg.total s.swarm.master.bitfield)] }
  uploads : s.uploads = []
  heard : s.heard = []
  failed : s.failed = false

/-- **The connection has been made.** Both ends have the same number of pieces; `send_bitfield` counts
the bytes with a `float`, which is exact up to that number. -/
structure Opened (l : Local m) (r : Local n) (s : Link m n) : Prop where
  left : Accessed l s.left
  right : Accessed r s.right
  total_eq : l.cfg.total = r.cfg.total
  total_le : l.cfg.total ≤ 2 ^ 24

/-! ### The invariant -/

/-- The block that a message brings. -/
def blockOf : Message → Option (ℕ × ℕ)
  | .piece index begin_ _ => some (index, begin_)
  | _ => none

/-- The block that a read job reads. -/
def readBy (job : ℕ × ℕ × ℕ) : ℕ × ℕ := (job.1, job.2.1)

/-- The block that a message asks for. -/
def wantedOf (msg : Message) : Option (ℕ × ℕ) :=
  (requestOf msg).map readBy

/-- The requests that have been handled are the blocks sent and the jobs queued. -/
def Serves (l : Local n) (s : Side n) : Prop :=
  ((s.client l).sent.filterMap blockOf ++ s.uploads.map readBy).Perm (s.heard.filterMap wantedOf)

/-- What holds at one end, whatever the other end sends. -/
structure Sound (l : Local n) (s : Side n) : Prop where
  inRange : InRange l.cfg s.swarm
  polite : Polite l.cfg.total s.swarm.master.bitfield (voice (s.client l)) s.heard
  truthful : Truthful l.cfg.total s.swarm.master.bitfield (voice (s.client l)) s.heard
  answered : Answered (voice (s.client l))
  uploads : ∀ job ∈ s.uploads, job.1 < l.cfg.total

/-- A client is disconnected only if its connection fails, and serves what it is asked for until then. -/
structure Steady (l : Local n) (s : Side n) : Prop where
  queued : .disconnect ∉ (s.client l).strand
  connected : (s.client l).isDisconnected = false
  serves : Serves l s

/-- **What holds of two ends.** -/
structure Pair (l : Local m) (r : Local n) (a : Side m) (b : Side n) : Prop where
  total_eq : l.cfg.total = r.cfg.total
  total_le : l.cfg.total ≤ 2 ^ 24
  left : Sound l a
  right : Sound r b
  leftSteady : a.failed = false → Steady l a
  rightSteady : b.failed = false → Steady r b
  leftHears : a.arrived l <+: (b.client r).sent
  rightHears : b.arrived r <+: (a.client l).sent

variable {l : Local m} {r : Local n} {a a' : Side m} {b : Side n}

theorem Pair.symm (h : Pair l r a b) : Pair r l b a :=
  ⟨h.total_eq.symm, h.total_eq ▸ h.total_le, h.right, h.left, h.rightSteady, h.leftSteady, h.rightHears,
    h.leftHears⟩

theorem heard_isPrefix (l : Local m) (a : Side m) : a.heard <+: a.arrived l :=
  List.prefix_append _ _

/-- **No message is rejected.** -/
theorem Pair.accepts (h : Pair l r a b) {msg : Message}
    (hmsg : a.heard ++ [msg] <+: (b.client r).sent) : rejects l.cfg (a.client l) msg = false := by
  have hfits : Fits l.cfg.total a.heard msg := h.total_eq ▸ h.right.polite.fits.of_isPrefix hmsg
  cases msg with
  | bitfield payload => simpa [rejects, Fits] using hfits
  | piece index begin_ data => simpa [rejects, Fits] using hfits
  | cancel index begin_ length => simpa [rejects, Fits] using hfits
  | request index begin_ length =>
    obtain ⟨hlt, htold, hnot⟩ := hfits
    have hinterested : (a.client l).peerInterested = true := h.left.polite.peerInterested.symm.trans htold
    -- the other end has been unchoked, and has not said since that it is not interested
    have hsent : .request index begin_ length ∈ (b.client r).sent :=
      hmsg.subset (List.mem_append_right _ List.mem_cons_self)
    have hunchoke : .unchoke ∈ b.heard := h.right.polite.unchoke_of_request ⟨_, hsent, rfl⟩
    have hunchoke' : .unchoke ∈ (a.client l).sent :=
      h.rightHears.subset ((heard_isPrefix r b).subset hunchoke)
    have hchoking : (a.client l).amChoking = false := by
      by_contra hc
      rcases h.left.polite.choked (Bool.eq_true_of_not_eq_false hc) with hc | hc
      · exact hc hunchoke'
      · exact hnot hc
    simp [rejects, hinterested, hchoking, hlt]
  | invalid => exact hfits.elim
  | _ => rfl

/-- **What the other end is asked for is there.** -/
theorem Pair.pieces_subset (h : Pair l r a b) :
    (a.client l).pieces ⊆ b.swarm.master.bitfield := by
  intro i hi
  obtain ⟨msg, hmem, hoffered⟩ := h.left.truthful.pieces i hi
  have hsent : msg ∈ (b.client r).sent := h.leftHears.subset ((heard_isPrefix l a).subset hmem)
  exact h.right.truthful.offers msg hsent (h.total_eq ▸ hoffered)

/-! ### A step at one end -/

/-- **What a step of the swarm does at one end**: the message that is handled, what the client says, and
the pieces that are done. -/
inductive Utters (l : Local n) (s : Side n) (e : Event n) (swarm' : State n) : Prop
  | talks (hhandled : handled l s.swarm e = [])
      (htalks : Talks l.cfg.total s.swarm.master.bitfield (voice (s.client l))
        (voice (swarm'.clients l.peer)))
      (hbits : swarm'.master.bitfield = s.swarm.master.bitfield)
  | hears (msg : Message) (hhandled : handled l s.swarm e = [msg])
      (haccept : rejects l.cfg (s.client l) msg = false)
      (htalks : Talks l.cfg.total s.swarm.master.bitfield ((voice (s.client l)).hears l.cfg.total msg)
        (voice (swarm'.clients l.peer)))
      (hanswered : Answered (voice (s.client l)) → Answered (voice (swarm'.clients l.peer)))
      (hbits : swarm'.master.bitfield = s.swarm.master.bitfield)
  | disconnects (hhandled : handled l s.swarm e = []) (hmem : .disconnect ∈ (s.client l).strand)
      (hvoice : voice (swarm'.clients l.peer) = (voice (s.client l)).disconnect)
      (hbits : swarm'.master.bitfield = s.swarm.master.bitfield)
  | finishes (i : ℕ) (hhandled : handled l s.swarm e = [])
      (hvoice : voice (swarm'.clients l.peer) = voice (s.client l) ∨
        voice (swarm'.clients l.peer) = (voice (s.client l)).speak (.have_ (i % 2 ^ 32)))
      (hbits : swarm'.master.bitfield = insert i s.swarm.master.bitfield) (hi : i < l.cfg.total)

/-- The messages of a strand are the one that is handled and those that stay. -/
theorem handled_append (l : Local n) (s : State n) (e : Event n) :
    handled l s e ++ messagesOf ((s.clients l.peer).strand.drop (taken l.peer e)) =
      messagesOf (s.clients l.peer).strand := by
  cases e with
  | run q r =>
    dsimp only [handled, taken]
    split_ifs with hq
    · subst hq
      unfold messagesOf
      rw [← List.filterMap_append, List.take_append_drop]
    · rfl
  | _ => rfl

theorem handled_of_taken {s : State n} {l : Local n} {e : Event n} (h : taken l.peer e = 0) :
    handled l s e = [] := by
  cases e with
  | run q r =>
    dsimp only [taken] at h
    split_ifs at h with hq
    exact if_neg hq
  | _ => rfl

theorem handled_run {s : State n} {l : Local n} {r : ℕ} {h : Handler} {rest : List Handler}
    (hstrand : (s.clients l.peer).strand = h :: rest) :
    handled l s (.run l.peer r) = messagesOf [h] := by
  dsimp only [handled]
  rw [if_pos rfl, hstrand]
  rfl

theorem Pair.utters (h : Pair l r a b) {e : Event m} {swarm' : State m}
    (hstep : step l.cfg a.swarm e = some swarm') : Utters l a e swarm' := by
  cases speaks_step hstep l.peer with
  | silent htaken hvoice hbits =>
    exact .talks (handled_of_taken htaken) (hvoice ▸ .refl) hbits
  | runs k hd rest m' c' hstrand hex hvoice hbits =>
    -- the handler finds its client with the rest of the strand
    generalize hc : ({ a.swarm.clients l.peer with strand := rest } : Client) = c at hex
    have hsame : voice (a.client l) = voice c := hc ▸ rfl
    by_cases hmsg : ∃ msg, hd = .message msg
    · obtain ⟨msg, rfl⟩ := hmsg
      have hle : a.heard ++ [msg] <+: a.arrived l := by
        unfold Side.arrived Side.client
        rw [hstrand]
        exact ⟨messagesOf rest, List.append_assoc a.heard [msg] _⟩
      have haccept := h.accepts (hle.trans h.leftHears)
      have haccept' : rejects l.cfg c msg = false := hc ▸ haccept
      have hc' : voice c' = voice (handleResponse l.cfg k a.swarm.master c msg).2 := by
        rw [← voice_onMessage]
        exact congrArg (fun res => voice res.2) (Option.some.inj hex).symm
      refine .hears msg (handled_run hstrand) haccept ?_ (fun hanswered => ?_) hbits
      · rw [hvoice, hc', hsame]
        exact talks_handleResponse _ _ _ _ msg haccept'
      · rw [hvoice, hc']
        exact answered_handleResponse haccept' (hsame ▸ hanswered)
    · have hnone : handled l a.swarm (.run l.peer k) = [] := by
        rw [handled_run hstrand]
        cases hd with
        | message msg => exact absurd ⟨msg, rfl⟩ hmsg
        | _ => rfl
      by_cases hdisc : hd = .disconnect
      · subst hdisc
        refine .disconnects hnone (hstrand ▸ List.mem_cons_self) ?_ hbits
        cases hex
        rw [hvoice, hsame]
        exact voice_disconnect _
      · refine .talks hnone ?_ hbits
        rw [hvoice, hsame]
        exact talks_execute hex (fun msg heq => hmsg ⟨msg, heq⟩) hdisc
  | works k sorted req hreq hvoice hbits =>
    exact .finishes req.pieceIndex rfl hvoice hbits (h.left.inRange.jobs req (List.mem_of_getElem? hreq))

/-- The end after a step of its swarm. -/
def Side.after (l : Local n) (s : Side n) (e : Event n) (swarm' : State n) : Side n where
  swarm := swarm'
  uploads := s.uploads ++ (handled l s.swarm e).flatMap (jobsOf l s.swarm)
  heard := s.heard ++ handled l s.swarm e
  failed := s.failed || fails l e

theorem lt_of_mem_jobsOf {s : State n} {l : Local n} {msg : Message} {job : ℕ × ℕ × ℕ}
    (hrange : InRange l.cfg s) (h : job ∈ jobsOf l s msg) : job.1 < l.cfg.total := by
  unfold jobsOf at h
  cases hreq : requestOf msg with
  | none => rw [hreq] at h; cases h
  | some req =>
    rw [hreq] at h
    dsimp only at h
    split_ifs at h with hc
    · rw [List.mem_singleton.mp h]
      exact Finset.mem_range.mp (hrange.bits hc.2)
    · cases h

/-- **A step of the swarm keeps its end sound.** -/
theorem Pair.sound_after (h : Pair l r a b) {e : Event m} {swarm' : State m}
    (hstep : step l.cfg a.swarm e = some swarm') : Sound l (a.after l e swarm') := by
  have hrange := inRange_step h.left.inRange hstep
  have htotal : l.cfg.total ≤ 2 ^ 32 := h.total_le.trans (by decide)
  have huploads : ∀ job ∈ (a.after l e swarm').uploads, job.1 < l.cfg.total := by
    intro job hjob
    rcases List.mem_append.mp hjob with hjob | hjob
    · exact h.left.uploads job hjob
    · obtain ⟨msg, -, hmsg⟩ := List.mem_flatMap.mp hjob
      exact lt_of_mem_jobsOf h.left.inRange hmsg
  suffices hvoice : Polite l.cfg.total swarm'.master.bitfield (voice (swarm'.clients l.peer))
      (a.heard ++ handled l a.swarm e) ∧ Truthful l.cfg.total swarm'.master.bitfield
      (voice (swarm'.clients l.peer)) (a.heard ++ handled l a.swarm e) ∧
      Answered (voice (swarm'.clients l.peer)) from
    ⟨hrange, hvoice.1, hvoice.2.1, hvoice.2.2, huploads⟩
  cases h.utters hstep with
  | talks hhandled htalks hbits =>
    rw [hhandled, List.append_nil, hbits]
    exact ⟨h.left.polite.talks htalks, h.left.truthful.talks htotal htalks,
      h.left.answered.talks htalks⟩
  | hears msg hhandled haccept htalks hanswered hbits =>
    rw [hhandled, hbits]
    exact ⟨(h.left.polite.hears msg).talks htalks, (h.left.truthful.hears msg).talks htotal htalks,
      hanswered h.left.answered⟩
  | disconnects hhandled hmem hvoice hbits =>
    rw [hhandled, List.append_nil, hbits, hvoice]
    exact ⟨h.left.polite.disconnect, { h.left.truthful with }, nofun⟩
  | finishes i hhandled hvoice hbits hi =>
    have hsub : a.swarm.master.bitfield ⊆ swarm'.master.bitfield := hbits ▸ Finset.subset_insert _ _
    have hpolite := h.left.polite.have_ hsub hrange.bits
    have htruthful := h.left.truthful.have_ hsub
    rw [hhandled, List.append_nil]
    rcases hvoice with hvoice | hvoice
    · rw [hvoice]
      exact ⟨hpolite, htruthful, h.left.answered⟩
    · rw [hvoice]
      have hoffered : offered l.cfg.total (.have_ (i % 2 ^ 32)) ⊆ swarm'.master.bitfield := by
        dsimp only [offered]
        rw [Nat.mod_eq_of_lt (hi.trans_le htotal), if_pos hi, hbits]
        exact Finset.singleton_subset_iff.mpr (Finset.mem_insert_self _ _)
      exact ⟨hpolite.tells (.have_ _) (fun _ => trivial) nofun nofun nofun nofun,
        htruthful.tells (.have_ _) hoffered nofun, h.left.answered.speak⟩

/-- **A step of the swarm sends no block** to the other end. -/
theorem Pair.sent_after (h : Pair l r a b) {e : Event m} {swarm' : State m}
    (hstep : step l.cfg a.swarm e = some swarm') :
    Extends (blockOf · = none) (a.client l).sent ((a.after l e swarm').client l).sent := by
  have htalk : ∀ msg, isTalk msg = true → blockOf msg = none := by
    intro msg hmsg
    cases msg <;> first | rfl | cases hmsg
  cases h.utters hstep with
  | talks hhandled htalks => exact (sent_talks htalks).imp htalk
  | hears msg hhandled haccept htalks =>
    have hsent := (hears_fields l.cfg.total (voice (a.client l)) msg).2.2.2.2.1
    have hext := (sent_talks htalks).imp htalk
    rw [hsent] at hext
    exact hext
  | disconnects hhandled hmem hvoice =>
    have hsent : ((a.after l e swarm').client l).sent = (a.client l).sent := congrArg Voice.sent hvoice
    rw [hsent]
    exact .refl _ _
  | finishes i hhandled hvoice =>
    rcases hvoice with hvoice | hvoice
    · have hsent : ((a.after l e swarm').client l).sent = (a.client l).sent := congrArg Voice.sent hvoice
      rw [hsent]
      exact .refl _ _
    · have hext : Extends (blockOf · = none) (voice (a.client l)).sent
          ((voice (a.client l)).speak (.have_ (i % 2 ^ 32))).sent := sent_speak _ rfl
      rw [← hvoice] at hext
      exact hext

/-- What the socket has queued during a step is no message of the other end, unless it arrives. -/
theorem messagesOf_brought {e : Event n} {l : Local n} (h : isArrival l e = false) :
    messagesOf (brought l.peer e) = [] := by
  cases e with
  | arrive q msg =>
    have hq : l.peer ≠ q := by simpa [isArrival] using h
    exact congrArg messagesOf (if_neg hq)
  | fail q =>
    dsimp only [brought]
    split_ifs
    · rfl
    · rfl
  | _ => rfl

theorem messagesOf_posts {before after : List Handler} (h : Posts before after) :
    messagesOf after = messagesOf before := by
  refine h.filterMap_eq fun hd hposted => ?_
  cases hd <;> first | rfl | cases hposted

/-- A message that is handled had arrived before. -/
theorem arrived_after {s : Side n} {l : Local n} {e : Event n} {swarm' : State n}
    (hstep : step l.cfg s.swarm e = some swarm') (harrival : isArrival l e = false) :
    (s.after l e swarm').arrived l = s.arrived l := by
  have hqueued : messagesOf ((s.after l e swarm').client l).strand =
      messagesOf ((s.client l).strand.drop (taken l.peer e)) := by
    have happend : ∀ hs hs' : List Handler, messagesOf (hs ++ hs') = messagesOf hs ++ messagesOf hs' :=
      fun hs hs' => List.filterMap_append ..
    have hposts := messagesOf_posts (strand_step hstep l.peer)
    rw [happend, messagesOf_brought harrival, List.append_nil] at hposts
    exact hposts
  have hsplit := handled_append l s.swarm e
  unfold Side.arrived
  rw [hqueued, Side.client, ← hsplit]
  exact List.append_assoc _ _ _

/-- A request that fits is queued as a job. -/
theorem Pair.jobsOf_eq (h : Pair l r a b) {msg : Message}
    (hmsg : a.heard ++ [msg] <+: (b.client r).sent) :
    (jobsOf l a.swarm msg).map readBy = [msg].filterMap wantedOf := by
  have haccept := h.accepts hmsg
  have hmem : msg ∈ (b.client r).sent := hmsg.subset (List.mem_append_right _ List.mem_cons_self)
  cases msg with
  | request index begin_ length =>
    have hdone : index ∈ a.swarm.master.bitfield :=
      h.symm.pieces_subset (h.right.truthful.requests index begin_ length hmem)
    dsimp only [jobsOf, requestOf]
    rw [if_pos ⟨haccept, hdone⟩]
    rfl
  | _ => rfl

theorem handled_isPrefix (l : Local n) (s : Side n) (e : Event n) :
    s.heard ++ handled l s.swarm e <+: s.arrived l := by
  unfold Side.arrived Side.client
  rw [← handled_append l s.swarm e, ← List.append_assoc]
  exact List.prefix_append _ _

/-- What has been handled is served or queued. -/
theorem Pair.serves_after (h : Pair l r a b) {e : Event m} {swarm' : State m}
    (hstep : step l.cfg a.swarm e = some swarm') (hserves : Serves l a) :
    Serves l (a.after l e swarm') := by
  have hsent := (h.sent_after hstep).filterMap_eq fun msg hmsg => hmsg
  have hjobs : ((handled l a.swarm e).flatMap (jobsOf l a.swarm)).map readBy =
      (handled l a.swarm e).filterMap wantedOf := by
    have hle := (handled_isPrefix l a e).trans h.leftHears
    cases h.utters hstep with
    | hears msg hhandled =>
      rw [hhandled] at hle ⊢
      rw [List.flatMap_singleton]
      exact h.jobsOf_eq hle
    | talks hhandled => rw [hhandled]; rfl
    | disconnects hhandled => rw [hhandled]; rfl
    | finishes i hhandled => rw [hhandled]; rfl
  have happend : (a.after l e swarm').uploads.map readBy =
      a.uploads.map readBy ++ (handled l a.swarm e).filterMap wantedOf := by
    rw [← hjobs]
    exact List.map_append
  have hheard : (a.after l e swarm').heard.filterMap wantedOf =
      a.heard.filterMap wantedOf ++ (handled l a.swarm e).filterMap wantedOf :=
    List.filterMap_append ..
  unfold Serves
  rw [hsent, happend, hheard, ← List.append_assoc]
  exact hserves.append_right _

/-- **A step of the swarm keeps its end steady** until the connection fails. -/
theorem Pair.steady_after (h : Pair l r a b) {e : Event m} {swarm' : State m}
    (hstep : step l.cfg a.swarm e = some swarm') (hfailed : (a.after l e swarm').failed = false) :
    Steady l (a.after l e swarm') := by
  obtain ⟨hbefore, hfails⟩ := Bool.or_eq_false_iff.mp hfailed
  obtain ⟨hqueued, hconnected, hserves⟩ := h.leftSteady hbefore
  refine ⟨fun hmem => ?_, ?_, h.serves_after hstep hserves⟩
  · have hmem' := (strand_step hstep l.peer).of_mem hmem (by decide)
    rcases List.mem_append.mp hmem' with hmem' | hmem'
    · exact hqueued (List.mem_of_mem_drop hmem')
    · cases e with
      | arrive q msg =>
        dsimp only [brought] at hmem'
        split_ifs at hmem' <;> simp at hmem'
      | fail q =>
        have hq : l.peer ≠ q := by simpa [fails] using hfails
        dsimp only [brought] at hmem'
        rw [if_neg hq] at hmem'
        cases hmem'
      | _ => cases hmem'
  · change (voice (a.client l)).isDisconnected = false at hconnected
    change (voice (swarm'.clients l.peer)).isDisconnected = false
    cases h.utters hstep with
    | talks hhandled htalks => rw [isDisconnected_talks htalks, hconnected]
    | hears msg hhandled haccept htalks =>
      rw [isDisconnected_talks htalks, (hears_fields l.cfg.total _ msg).1, hconnected]
    | disconnects hhandled hmem => exact absurd hmem hqueued
    | finishes i hhandled hvoice =>
      rcases hvoice with hvoice | hvoice
      · rw [hvoice, hconnected]
      · rw [hvoice, isDisconnected_speak, hconnected]

/-- **A step of the swarm at one end.** -/
theorem Pair.after (h : Pair l r a b) {e : Event m} {swarm' : State m}
    (hstep : step l.cfg a.swarm e = some swarm') (harrival : isArrival l e = false) :
    Pair l r (a.after l e swarm') b where
  total_eq := h.total_eq
  total_le := h.total_le
  left := h.sound_after hstep
  right := h.right
  leftSteady := h.steady_after hstep
  rightSteady := h.rightSteady
  leftHears := (arrived_after hstep harrival).symm ▸ h.leftHears
  rightHears := h.rightHears.trans (h.sent_after hstep).isPrefix

/-- **A message arrives.** -/
theorem Pair.receive (h : Pair l r a b) {msg : Message} {swarm' : State m}
    (hmsg : (b.client r).sent[(a.arrived l).length]? = some msg)
    (hstep : step l.cfg a.swarm (.arrive l.peer msg) = some swarm') :
    Pair l r { a with swarm := swarm' } b := by
  have hswarm : swarm'.master = a.swarm.master ∧ swarm'.clients l.peer =
      Client.post (.message msg) { a.client l with reading := false } := by
    dsimp only [step] at hstep
    split_ifs at hstep
    cases hstep
    exact ⟨rfl, Function.update_self ..⟩
  obtain ⟨hmaster, hclient⟩ := hswarm
  have hvoice : voice (swarm'.clients l.peer) = voice (a.client l) := hclient ▸ rfl
  have hsent : (swarm'.clients l.peer).sent = (a.client l).sent := congrArg Voice.sent hvoice
  have hstrand : (swarm'.clients l.peer).strand = (a.client l).strand ++ [.message msg] := hclient ▸ rfl
  have harrived : Side.arrived l { a with swarm := swarm' } = a.arrived l ++ [msg] := by
    unfold Side.arrived Side.client
    dsimp only
    rw [hstrand, List.append_assoc]
    exact congrArg _ (List.filterMap_append ..)
  refine
    { h with
      left := ⟨inRange_step h.left.inRange hstep, ?_, ?_, ?_, h.left.uploads⟩
      leftSteady := fun hfailed => ?_
      leftHears := ?_
      rightHears := ?_ }
  · unfold Side.client
    dsimp only
    rw [hmaster, hvoice]
    exact h.left.polite
  · unfold Side.client
    dsimp only
    rw [hmaster, hvoice]
    exact h.left.truthful
  · unfold Side.client
    dsimp only
    rw [hvoice]
    exact h.left.answered
  · obtain ⟨hqueued, hconnected, hserves⟩ := h.leftSteady hfailed
    refine ⟨?_, ?_, ?_⟩
    · unfold Side.client
      dsimp only
      rw [hstrand]
      simpa using hqueued
    · exact (congrArg Voice.isDisconnected hvoice).trans hconnected
    · unfold Serves Side.client
      dsimp only
      rw [hsent]
      exact hserves
  · rw [harrived]
    exact concat_isPrefix h.leftHears hmsg
  · unfold Side.client
    dsimp only
    rw [hsent]
    exact h.rightHears

theorem inRange_set {cfg : Config} {s : State n} {p : Fin n} {c : Client} (h : InRange cfg s)
    (hcore : core c = core (s.clients p)) : InRange cfg (s.set p c) := by
  refine ⟨fun q => ?_, h.jobs, h.bits⟩
  by_cases hq : q = p
  · subst hq
    rw [coreOf_set_self, hcore]
    exact h.blocks q
  · rw [coreOf_set_of_ne s c hq]
    exact h.blocks q

/-- **A block is sent.** -/
theorem Pair.serve (h : Pair l r a b) {k index begin_ length : ℕ} (data : List UInt8)
    (hjob : a.uploads[k]? = some (index, begin_, length)) :
    Pair l r { a with
      swarm := a.swarm.set l.peer ((a.client l).send (.piece index begin_ data))
      uploads := a.uploads.eraseIdx k } b := by
  generalize hside : ({ a with
    swarm := a.swarm.set l.peer ((a.client l).send (.piece index begin_ data))
    uploads := a.uploads.eraseIdx k } : Side m) = a'
  have hlt : index < l.cfg.total := h.left.uploads _ (List.mem_of_getElem? hjob)
  have hclient : a'.client l = (a.client l).send (.piece index begin_ data) := by
    rw [← hside]
    exact Function.update_self ..
  have hvoice : voice (a'.client l) = Voice.tells (.piece index begin_ data) (voice (a.client l)) := by
    rw [hclient]
    exact voice_send _ _
  have hcore : core (a'.client l) = core (a.client l) := by
    rw [hclient]
    exact core_send _ _
  have hstrand : (a'.client l).strand = (a.client l).strand := congrArg Core.strand hcore
  have hheard : a'.heard = a.heard := hside ▸ rfl
  have hmaster : a'.swarm.master = a.swarm.master := hside ▸ rfl
  have huploads : a'.uploads = a.uploads.eraseIdx k := hside ▸ rfl
  have hfailed' : a'.failed = a.failed := hside ▸ rfl
  have hrange : InRange l.cfg a'.swarm := hside ▸ inRange_set h.left.inRange (core_send _ _)
  refine
    { h with
      left := ⟨hrange, ?_, ?_, ?_, fun job hmem => ?_⟩
      leftSteady := fun hfailed => ?_
      leftHears := ?_
      rightHears := ?_ }
  · rw [hvoice, hmaster, hheard]
    exact h.left.polite.tells (.piece _ _ _) (fun _ => hlt) nofun nofun nofun nofun
  · rw [hvoice, hmaster, hheard]
    exact h.left.truthful.tells (.piece _ _ _) (Finset.empty_subset _) nofun
  · rw [hvoice]
    exact h.left.answered.speak
  · rw [huploads] at hmem
    exact h.left.uploads job (List.mem_of_mem_eraseIdx hmem)
  · obtain ⟨hqueued, hconnected, hserves⟩ := h.leftSteady (hfailed'.symm.trans hfailed)
    have hsent : (a'.client l).sent = (a.client l).sent ++ [.piece index begin_ data] := by
      rw [hclient, Client.send, if_neg (by simp [hconnected])]
    refine ⟨hstrand ▸ hqueued, (congrArg Core.isDisconnected hcore).trans hconnected, ?_⟩
    -- the block moves from the jobs to the messages
    unfold Serves at hserves ⊢
    rw [hsent, huploads, hheard, List.filterMap_append, List.append_assoc]
    refine List.Perm.trans (List.Perm.append_left _ ?_) hserves
    obtain ⟨hk, hget⟩ := List.getElem?_eq_some_iff.mp hjob
    have hperm := (List.getElem_cons_eraseIdx_perm hk).map readBy
    rw [hget] at hperm
    exact hperm
  · unfold Side.arrived
    rw [hheard, hstrand]
    exact h.leftHears
  · have hext : Extends (fun _ => True) (voice (a.client l)).sent
        ((voice (a.client l)).speak (.piece index begin_ data)).sent := sent_speak _ trivial
    rw [← voice_send, ← hclient] at hext
    exact h.rightHears.trans hext.isPrefix

/-- **A step at one end.** -/
theorem Pair.sideStep (h : Pair l r a b) {e : SideEvent m} (hnext : IsNext l (b.client r).sent a e)
    (hstep : sideStep l a e = some a') : Pair l r a' b := by
  cases e with
  | swarm e =>
    dsimp only [TwoClients.sideStep] at hstep
    split_ifs at hstep with harrival
    obtain ⟨swarm', hswarm, rfl⟩ := Option.map_eq_some_iff.mp hstep
    exact h.after hswarm (by simpa using harrival)
  | receive msg =>
    obtain ⟨swarm', hswarm, rfl⟩ := Option.map_eq_some_iff.mp hstep
    exact h.receive hnext hswarm
  | serve k =>
    dsimp only [TwoClients.sideStep] at hstep
    cases hjob : a.uploads[k]? with
    | none => rw [hjob] at hstep; cases hstep
    | some job =>
      obtain ⟨index, begin_, length⟩ := job
      rw [hjob] at hstep
      dsimp only at hstep
      cases hread : readPieceBlockFromFile l.cfg.manager a.swarm.disk index begin_ length with
      | error fault => rw [hread] at hstep; cases hstep
      | ok block =>
        have hlt : index < l.cfg.total := h.left.uploads _ (List.mem_of_getElem? hjob)
        rw [hread] at hstep
        dsimp only at hstep
        rw [if_neg (Nat.not_le_of_lt hlt)] at hstep
        cases hstep
        exact h.serve block.data hjob

/-! ### Runs -/

theorem Accessed.voice_eq {l : Local n} {s : Side n} (h : Accessed l s) :
    voice (s.client l) = accessed l.cfg.total s.swarm.master.bitfield := h.client ▸ rfl

theorem Accessed.sound {l : Local n} {s : Side n} (h : Accessed l s) : Sound l s where
  inRange := h.inRange
  polite := by
    rw [h.voice_eq, h.heard]
    exact polite_accessed _ _
  truthful := by
    rw [h.voice_eq, h.heard]
    exact truthful_accessed _ _
  answered := by
    rw [h.voice_eq]
    exact nofun
  uploads := by
    rw [h.uploads]
    exact nofun

theorem Accessed.steady {l : Local n} {s : Side n} (h : Accessed l s) : Steady l s where
  queued := by
    rw [h.client]
    exact fun hmem => Handler.noConfusion (List.mem_singleton.mp hmem)
  connected := by
    rw [h.client]
    rfl
  serves := by
    unfold Serves
    rw [h.client, h.uploads, h.heard]
    exact .refl _

theorem Accessed.arrived_eq {l : Local n} {s : Side n} (h : Accessed l s) : s.arrived l = [] := by
  unfold Side.arrived
  rw [h.client, h.heard]
  rfl

theorem Opened.pair {s : Link m n} (h : Opened l r s) : Pair l r s.left s.right where
  total_eq := h.total_eq
  total_le := h.total_le
  left := h.left.sound
  right := h.right.sound
  leftSteady _ := h.left.steady
  rightSteady _ := h.right.steady
  leftHears := h.left.arrived_eq ▸ List.nil_prefix
  rightHears := h.right.arrived_eq ▸ List.nil_prefix

/-- **Every state of a run.** -/
theorem pair_run {s s' : Link m n} {es : List (LinkEvent m n)} (hopen : Opened l r s)
    (hdelivers : Along (linkStep l r) (Delivers l r) s es) (hrun : run (linkStep l r) s es = some s') :
    Pair l r s'.left s'.right := by
  refine invariant_of_run (fun s => Pair l r s.left s.right) (Delivers l r) ?_ hopen.pair hdelivers hrun
  rintro s (e | e) s' hpair hnext hstep
  · obtain ⟨side, hside, rfl⟩ := Option.map_eq_some_iff.mp hstep
    exact hpair.sideStep hnext hside
  · obtain ⟨side, hside, rfl⟩ := Option.map_eq_some_iff.mp hstep
    exact (hpair.symm.sideStep hnext hside).symm

/-- An end never rejects a message of the other one, and is not disconnected unless its connection
fails or its deadline passes. -/
def Civil (l : Local n) (s : Side n) : Prop :=
  (∀ msg rest, (s.client l).strand = .message msg :: rest → rejects l.cfg (s.client l) msg = false) ∧
    (s.failed = false → (s.client l).isDisconnected = false)

theorem Pair.civil (h : Pair l r a b) : Civil l a := by
  refine ⟨fun msg rest hstrand => h.accepts ?_, fun hfailed => (h.leftSteady hfailed).connected⟩
  refine .trans ?_ h.leftHears
  unfold Side.arrived
  rw [hstrand]
  exact ⟨messagesOf rest, List.append_assoc a.heard [msg] _⟩

/-- All that has been sent has been handled, the connection has not failed, and no deadline has passed. -/
structure Quiet (l : Local m) (r : Local n) (s : Link m n) : Prop where
  left : s.left.heard = (s.right.client r).sent
  right : s.right.heard = (s.left.client l).sent
  leftConnected : s.left.failed = false
  rightConnected : s.right.failed = false

/-! ### A client that has the three bytes, and one that has none of them -/

/-- The first of its two peers is the other end. -/
def firstPeer : Local 2 := ⟨threeBytes, ⟨0, Nat.zero_lt_two⟩⟩

def seederAndLeecher : Link 2 2 where
  left :=
    ⟨started 2 threeBytes (fun path => if path = 0 then some [1, 2, 3] else none) true, [], [], false⟩
  right := ⟨started 2 threeBytes threeBytesDisk false, [], [], false⟩

theorem opened_seederAndLeecher : Opened firstPeer firstPeer seederAndLeecher where
  left := ⟨inRange_started threeBytes _ true, rfl, rfl, rfl, rfl⟩
  right := ⟨inRange_started threeBytes _ false, rfl, rfl, rfl, rfl⟩
  total_eq := rfl
  total_le := by decide

/-- A message is received and handled, and the next read begins. -/
def hearing (p : Fin n) (msg : Message) : List (SideEvent n) :=
  [.receive msg, .swarm (.run p 0), .swarm (.run p 0)]

/-- Both begin to read; the leecher says that it is interested, is unchoked, requests a block, and gets
it. -/
def exchange (p : Fin n) : List (LinkEvent n n) :=
  [.left (.swarm (.run p 0)), .right (.swarm (.run p 0))] ++
    (hearing p (.bitfield [0xC0])).map .right ++ (hearing p (.bitfield [0])).map .left ++
    (hearing p .interested).map .left ++ (hearing p .notInterested).map .right ++
    (hearing p .unchoke).map .right ++ (hearing p (.request 0 0 2)).map .left ++ [.left (.serve 0)] ++
    (hearing p (.piece 0 0 [1, 2])).map .right

/-- The state they are in after that. -/
def exchanged : Option (Link 2 2) :=
  run (linkStep firstPeer firstPeer) seederAndLeecher (exchange firstPeer.peer)

theorem quiet_exchanged : ∃ s, exchanged = some s ∧ Quiet firstPeer firstPeer s :=
  ⟨_, rfl, by decide, by decide, rfl, rfl⟩

theorem delivers_exchange : Along (linkStep firstPeer firstPeer) (Delivers firstPeer firstPeer)
    seederAndLeecher (exchange firstPeer.peer) := by
  decide

/-! ### What holds in every run -/

/-- One client knows what the other one has decided, and is not choked if it is interested. -/
structure Agrees (c c' : Client) : Prop where
  peerInterested : c.peerInterested = c'.amInterested
  peerChoking : c.peerChoking = c'.amChoking
  unchoked : c.amInterested = true → c.peerChoking = false

theorem Pair.agrees (h : Pair l r a b) (ha : a.heard = (b.client r).sent)
    (hb : b.heard = (a.client l).sent) (hfa : a.failed = false) (hfb : b.failed = false) :
    Agrees (a.client l) (b.client r) := by
  have hconnected := (h.leftSteady hfa).connected
  have hconnected' := (h.rightSteady hfb).connected
  have hchoking : (a.client l).peerChoking = (b.client r).amChoking := by
    have hspeak := h.right.polite.amChoking hconnected'
    have hhears := h.left.polite.peerChoking
    rw [ha] at hhears
    exact hhears.symm.trans hspeak
  have hinterested : (a.client l).peerInterested = (b.client r).amInterested := by
    have hspeak := h.right.polite.amInterested hconnected'
    have hhears := h.left.polite.peerInterested
    rw [ha] at hhears
    exact hhears.symm.trans hspeak
  refine ⟨hinterested, hchoking, fun ham => ?_⟩
  -- the other end has heard of the interest, and has answered it
  have hspeak := h.left.polite.amInterested hconnected
  have hhears := h.right.polite.peerInterested
  rw [hb] at hhears
  rw [hchoking]
  exact h.right.answered hconnected' (hhears.symm.trans (hspeak.trans ham))

/-- What one end asks for, the other one has; and what has been asked for is served once, unless the
connection fails or the deadline passes. -/
def Supplies (l : Local n) (s : Side n) (pieces : Finset ℕ) : Prop :=
  pieces ⊆ s.swarm.master.bitfield ∧ (s.failed = false → Serves l s)

end CppTorrent.Swarm.TwoClients
