import CppTorrent.Swarm.Answers
import CppTorrent.Lib.Runs

/-! # Assembling a piece

`assembling_step` follows one client through a step of the system: the answers that it has handled,
those queued on its strand and those that have not arrived yet are always a permutation of all, and a
write job is queued when the last one is handled. `assembled_run` is the same for a run, with steps of
the other clients and of the worker threads in between. -/

namespace CppTorrent.Swarm.Assembly

open CppTorrent.Files.Blocks CppTorrent.Swarm.Steps CppTorrent.Swarm.Requests CppTorrent.Swarm.Answers
open CppTorrent.Swarm.Model hiding answers
open CppTorrent.Lib.Runs

/-! ### A client that assembles a piece -/

/-- The client has handled some of the answers for piece `i` of `count` blocks, and not all. -/
structure Assembling (i count : ℕ) (handled : List Answer) (c : Core) : Prop where
  piece : c.piece = some (assemble (newPiece i count) handled)
  clear : .clearAndTry ∉ c.strand
  more : handled.length < count

theorem Assembling.quiet {i count : ℕ} {handled : List Answer} {c c' : Core}
    (hc : Assembling i count handled c) (hpiece : c'.piece = c.piece) (h : Quiet c c') :
    Assembling i count handled c' := by
  obtain ⟨posted, hstrand, -, hnot⟩ := h
  refine ⟨hpiece.trans hc.piece, ?_, hc.more⟩
  rw [hstrand, List.mem_append]
  rintro (hmem | hmem)
  · exact hc.clear hmem
  · exact hnot hmem

/-- A client keeps its piece, and at most one answer is queued on its strand. -/
structure Receives (c c' : Core) (a : Option Answer) : Prop where
  piece : c'.piece = c.piece
  queued : queuedAnswers c'.strand = queuedAnswers c.strand ++ a.toList
  clear : .clearAndTry ∈ c'.strand → .clearAndTry ∈ c.strand

theorem Receives.nothing (c : Core) : Receives c c none :=
  ⟨rfl, (List.append_nil _).symm, fun hmem => hmem⟩

theorem Receives.post {c c' : Core} {h : Handler} (hpiece : c'.piece = c.piece)
    (hstrand : c'.strand = c.strand ++ [h]) (hclear : h ≠ .clearAndTry) :
    Receives c c' (queuedAnswer h) := by
  refine ⟨hpiece, ?_, ?_⟩
  · rw [hstrand, queuedAnswers_append]
    cases ha : queuedAnswer h with
    | none =>
      have hnone : queuedAnswers [h] = [] := List.filterMap_cons_none ha
      rw [hnone]
      rfl
    | some a =>
      have hsome : queuedAnswers [h] = [a] := List.filterMap_cons_some ha
      rw [hsome]
      rfl
  · rw [hstrand, List.mem_append, List.mem_singleton]
    rintro (hmem | heq)
    · exact hmem
    · exact absurd heq.symm hclear

theorem Receives.told {cfg : Config} {c c' : Core} (h : Told cfg c c') : Receives c c' none := by
  cases h with
  | nothing => exact .nothing c
  | tryToRequest => exact .post (h := .tryToRequest) rfl rfl nofun
  | cancelIfActive i => exact .post (h := .cancelIfActive i) rfl rfl nofun

/-- What a strategy checks of an answer. -/
def Wanted (cfg : Config) (m : Master) (i : ℕ) : Prop :=
  (cfg.inEndGame m = false → i ∈ m.requestedPieces) ∧ i ∉ m.bitfield

/-- An answer that is wanted is posted. -/
theorem execute_answer {cfg : Config} {r i begin_ : ℕ} {m m' : Master} {c c' : Client}
    {data : List UInt8} (hi : i < cfg.total) (hlen : data.length ≤ mostRequestSize)
    (hw : Wanted cfg m i)
    (h : execute cfg r m c (.message (.piece i begin_ data)) = some (m', c')) :
    m' = m ∧ core c' = ((core c).post (.block i begin_ data)).postIfSubscribed .read := by
  obtain ⟨hreq, hdone⟩ := hw
  have hreq' : ¬ (¬ cfg.inEndGame m = true ∧ i ∉ m.requestedPieces) := by
    rintro ⟨hend, hnot⟩
    exact hnot (hreq (by simpa using hend))
  have hblock : onPieceBlock cfg m i begin_ data c =
      Client.post (.block i begin_ data) { c with waiting := false } := by
    unfold onPieceBlock
    rw [if_neg (by omega), if_neg (by omega), if_neg hreq', if_neg hdone]
  dsimp only [execute, onMessage, handleResponse] at h
  rw [hblock] at h
  obtain ⟨rfl, rfl⟩ := Prod.mk.inj (Option.some.inj h)
  exact ⟨rfl, core_doReadHeader _⟩

/-- The last block makes a write job. -/
theorem execute_last {cfg : Config} {r i begin_ : ℕ} {m m' : Master} {c c' : Client}
    {data : List UInt8} {piece : Piece} (hpiece : (core c).piece = some piece)
    (hlast : piece.currentBlocksNum + 1 = piece.blockCount)
    (h : execute cfg r m c (.block i begin_ data) = some (m', c')) :
    m'.jobs = m.jobs ++ [⟨i, stored piece begin_ data⟩] ∧
      (core c').strand = (core c).strand ++ [.clearAndTry] := by
  dsimp only [execute, storeBlock] at h
  cases hact : c.activePiece with
  | none =>
    rw [core, hact] at hpiece
    cases hpiece
  | some active =>
    obtain ⟨piece', offset⟩ := active
    obtain rfl : piece' = piece := by
      rw [core, hact] at hpiece
      exact Option.some.inj hpiece
    rw [hact] at h
    have hcount : (stored piece' begin_ data).currentBlocksNum =
        (stored piece' begin_ data).blockCount := hlast
    dsimp only at h
    split_ifs at h
    obtain ⟨rfl, rfl⟩ := Prod.mk.inj (Option.some.inj h)
    exact ⟨rfl, rfl⟩

/-- A block that is not the last is only stored. -/
theorem execute_stores {cfg : Config} {r i begin_ : ℕ} {m m' : Master} {c c' : Client}
    {data : List UInt8} {piece : Piece} (hpiece : (core c).piece = some piece)
    (hmore : piece.currentBlocksNum + 1 ≠ piece.blockCount)
    (h : execute cfg r m c (.block i begin_ data) = some (m', c')) :
    m' = m ∧ core c' = { core c with piece := some (stored piece begin_ data) } := by
  cases hcore : core c' with
  | mk d k pc rd st =>
    have hact := act_execute h
    rw [hcore] at hact
    cases hact with
    | stores piece' _ _ _ hpiece' =>
      obtain rfl : piece' = piece := Option.some.inj (hpiece'.symm.trans hpiece)
      exact ⟨rfl, rfl⟩
    | completes piece' _ _ _ hpiece' _ hlast =>
      obtain rfl : piece' = piece := Option.some.inj (hpiece'.symm.trans hpiece)
      exact absurd hlast hmore
    | idle hnone hh => rcases hh with hh | hh <;> cases hh
    | notActive id _ hh => rcases hh with hh | hh <;> cases hh

/-- **An answer is handled**: it is posted, or put into its slot, and the last one makes the write
job. -/
theorem assembling_answer {cfg : Config} {r i count : ℕ} {m m' : Master} {c c' : Client} {h : Handler}
    {a : Answer} {handled : List Answer} (hc : Assembling i count handled (core c))
    (ha : queuedAnswer h = some a) (hi : i < cfg.total) (hindex : a.index = i)
    (hlen : a.data.length ≤ mostRequestSize) (hw : Wanted cfg m i)
    (hex : execute cfg r m c h = some (m', c')) :
    (m'.jobs = m.jobs ∧ ∃ handled', Assembling i count handled' (core c') ∧
        (handled' ++ queuedAnswers (core c').strand).Perm
          (handled ++ a :: queuedAnswers (core c).strand)) ∨
      (handled.length + 1 = count ∧
        m'.jobs = m.jobs ++ [⟨i, assemble (newPiece i count) (handled ++ [a])⟩] ∧
        queuedAnswers (core c').strand = queuedAnswers (core c).strand) := by
  obtain ⟨-, hblocks, -, hnum⟩ := assemble_spec (newPiece i count) handled
  have hnum' : (assemble (newPiece i count) handled).currentBlocksNum = handled.length := by
    rw [hnum]
    exact Nat.zero_add _
  have hblocks' : (assemble (newPiece i count) handled).blockCount = count := hblocks
  subst hindex
  cases h with
  | message msg =>
    cases msg with
    | piece index begin_ data =>
      obtain rfl : a = ⟨index, begin_, data⟩ := (Option.some.inj ha).symm
      obtain ⟨rfl, hcore⟩ := execute_answer hi hlen hw hex
      left
      have hread : Quiet ((core c).post (.block index begin_ data)) (core c') := by
        rw [hcore]
        exact (Quiet.of_strand rfl).postIfSubscribed rfl nofun
      have hblock : Receives (core c) ((core c).post (.block index begin_ data))
          (some ⟨index, begin_, data⟩) := .post (h := .block index begin_ data) rfl rfl nofun
      have hpost : Assembling index count handled ((core c).post (.block index begin_ data)) :=
        ⟨hc.piece, fun hmem => hc.clear (hblock.clear hmem), hc.more⟩
      have hpiece : (core c').piece = ((core c).post (.block index begin_ data)).piece := by
        rw [hcore, piece_postIfSubscribed]
      refine ⟨rfl, handled, hpost.quiet hpiece hread, ?_⟩
      rw [hread.queuedAnswers, hblock.queued]
      exact (List.perm_append_singleton _ _).append_left handled
    | _ => cases ha
  | block index begin_ data =>
    obtain rfl : a = ⟨index, begin_, data⟩ := (Option.some.inj ha).symm
    by_cases hlast : handled.length + 1 = count
    · right
      obtain ⟨hjobs, hstrand⟩ := execute_last hc.piece (by rw [hnum', hblocks', hlast]) hex
      refine ⟨hlast, by rw [hjobs, assemble_append], ?_⟩
      rw [hstrand, queuedAnswers_append]
      exact List.append_nil _
    · left
      obtain ⟨rfl, hcore⟩ := execute_stores hc.piece (by rw [hnum', hblocks']; exact hlast) hex
      have hmore := hc.more
      refine ⟨rfl, handled ++ [⟨index, begin_, data⟩], ⟨?_, ?_, ?_⟩, ?_⟩
      · rw [hcore, assemble_append]
      · rw [hcore]
        exact hc.clear
      · rw [List.length_append, List.length_singleton]
        omega
      · rw [hcore, List.append_assoc]
        exact List.Perm.refl _
  | _ => cases ha

/-! ### Steps and runs -/

variable {n : ℕ}

/-- The answer that arrives at a client. -/
def arrival (p : Fin n) : Event n → Option Answer
  | .arrive q (.piece index begin_ data) => if q = p then some ⟨index, begin_, data⟩ else none
  | _ => none

/-- The answers that arrive at a client in a run. -/
def arrivals (p : Fin n) (es : List (Event n)) : List Answer := es.filterMap (arrival p)

/-- The write jobs that a client queues in a step. -/
def issuedIn (p : Fin n) (s : State n) (e : Event n) (s' : State n) : List WriteRequest :=
  match e with
  | .run q _ => if q = p then s'.master.jobs.drop s.master.jobs.length else []
  | _ => []

/-- The write jobs that a client queues in a run. -/
def issued (cfg : Config) (p : Fin n) : State n → List (Event n) → List WriteRequest
  | _, [] => []
  | s, e :: es =>
    match step cfg s e with
    | none => []
    | some s' => issuedIn p s e s' ++ issued cfg p s' es

/-- The piece stays requested and is not done when an answer is handled, and nothing takes it away. -/
def Calm (cfg : Config) (p : Fin n) (i : ℕ) (s : State n) (e : Event n) : Prop :=
  ∀ r h rest, e = .run p r → (s.clients p).strand = h :: rest →
    disturbs i h = false ∧ ((queuedAnswer h).isSome → Wanted cfg s.master i)

/-- A strand runs its first handler. -/
theorem execute_of_run {cfg : Config} {s s' : State n} {p : Fin n} {r : ℕ}
    (h : step cfg s (.run p r) = some s') :
    ∃ hd rest c', (s.clients p).strand = hd :: rest ∧
      execute cfg r s.master { s.clients p with strand := rest } hd = some (s'.master, c') ∧
      coreOf s' p = core c' := by
  dsimp only [step, runFirst] at h
  cases hs : (s.clients p).strand with
  | nil => rw [hs] at h; cases h
  | cons hd rest =>
    rw [hs] at h
    obtain ⟨⟨m, c'⟩, hex, heq⟩ := Option.map_eq_some_iff.mp h
    refine ⟨hd, rest, c', rfl, ?_⟩
    split_ifs at heq
    · subst heq
      refine ⟨hex, ?_⟩
      simp [coreOf, tryToRequestAgain, State.set]
    · subst heq
      exact ⟨hex, coreOf_set_self s p c'⟩

/-- A handler is queued on the strand of one of the clients. -/
theorem receives_set {s : State n} {p q : Fin n} {h : Handler} {c : Client}
    (hpiece : c.activePiece = (s.clients q).activePiece)
    (hstrand : c.strand = (s.clients q).strand ++ [h]) (hclear : h ≠ .clearAndTry) :
    Receives (coreOf s p) (coreOf (s.set q c) p) (if q = p then queuedAnswer h else none) := by
  by_cases hq : q = p
  · subst hq
    rw [if_pos rfl, coreOf_set_self]
    exact .post (by simp only [coreOf, core, hpiece]) hstrand hclear
  · rw [if_neg hq, coreOf_set_of_ne s c (Ne.symm hq)]
    exact .nothing _

/-- In a step other than those of its strand a client keeps its piece and queues no job, and an answer
is queued when it arrives. -/
theorem receives_of_other {cfg : Config} {s s' : State n} {p : Fin n} {e : Event n}
    (hrun : ∀ r, e ≠ .run p r) (h : step cfg s e = some s') :
    issuedIn p s e s' = [] ∧ Receives (coreOf s p) (coreOf s' p) (arrival p e) := by
  cases e with
  | arrive q msg =>
    refine ⟨rfl, ?_⟩
    dsimp only [step] at h
    split_ifs at h
    cases h
    have hset := receives_set (s := s) (p := p) (q := q) (h := .message msg)
      (c := Client.post (.message msg) { s.clients q with reading := false }) rfl rfl nofun
    have harrival : arrival p (.arrive q msg) =
        if q = p then queuedAnswer (.message msg) else none := by
      cases msg <;> simp [arrival, queuedAnswer]
    rw [harrival]
    exact hset
  | expire q =>
    refine ⟨rfl, ?_⟩
    dsimp only [step] at h
    split_ifs at h
    cases h
    have hset := receives_set (s := s) (p := p) (q := q) (h := .timeoutFired)
      (c := Client.post .timeoutFired { s.clients q with waiting := false }) rfl rfl nofun
    rw [show queuedAnswer .timeoutFired = none from rfl, ite_self] at hset
    exact hset
  | keepAlive q =>
    cases h
    have hset := receives_set (s := s) (p := p) (q := q) (h := .keepAlive)
      (c := (s.clients q).post .keepAlive) rfl rfl nofun
    rw [show queuedAnswer .keepAlive = none from rfl, ite_self] at hset
    exact ⟨rfl, hset⟩
  | fail q =>
    cases h
    have hset := receives_set (s := s) (p := p) (q := q) (h := .disconnect)
      (c := (s.clients q).post .disconnect) rfl rfl nofun
    rw [show queuedAnswer .disconnect = none from rfl, ite_self] at hset
    exact ⟨rfl, hset⟩
  | run q r =>
    have hq : p ≠ q := fun heq => hrun r (by rw [heq])
    refine ⟨if_neg (Ne.symm hq), ?_⟩
    cases step_moves h with
    | queues _ _ _ _ _ he => cases he
    | run _ _ hd rest hstrand hact hothers => exact .told (hothers p hq)
  | work k sorted =>
    refine ⟨rfl, ?_⟩
    cases step_moves h with
    | queues _ _ _ _ _ he => cases he
    | invalid _ _ _ _ _ _ hcores =>
      rw [hcores p]
      exact .nothing _
    | valid _ _ _ _ _ _ _ hcores => exact .told (hcores p)

theorem arrival_run (p : Fin n) (r : ℕ) : arrival p (.run p r) = none := rfl

/-- What is known of an answer. -/
theorem answer_spec {i : ℕ} {content : List UInt8} {a : Answer}
    (h : a ∈ (cut content).map (answerOf i)) : a.index = i ∧ a.data.length ≤ mostRequestSize := by
  obtain ⟨block, hblock, rfl⟩ := List.mem_map.mp h
  obtain ⟨k, -, rfl⟩ := List.mem_map.mp hblock
  refine ⟨rfl, ?_⟩
  change ((content.drop (k * mostRequestSize)).take mostRequestSize).length ≤ mostRequestSize
  rw [List.length_take]
  exact min_le_left _ _

/-- **One step of a client that assembles a piece**: `future` are the answers that arrive later. Either
it goes on with assembling, or it has handled all answers and queues the write job. -/
theorem assembling_step {cfg : Config} {s s' : State n} {p : Fin n} {e : Event n} {i : ℕ}
    {content : List UInt8} {handled future : List Answer} (hi : i < cfg.total)
    (hc : Assembling i (cut content).length handled (coreOf s p))
    (hall : (handled ++ queuedAnswers (coreOf s p).strand ++ (arrival p e).toList ++ future).Perm
      ((cut content).map (answerOf i)))
    (hcalm : Calm cfg p i s e) (h : step cfg s e = some s') :
    (issuedIn p s e s' = [] ∧ ∃ handled', Assembling i (cut content).length handled' (coreOf s' p) ∧
        (handled' ++ queuedAnswers (coreOf s' p).strand ++ future).Perm
          ((cut content).map (answerOf i))) ∨
      (∃ handled', handled'.length = (cut content).length ∧
        issuedIn p s e s' = [⟨i, assemble (newPiece i (cut content).length) handled'⟩] ∧
        (handled' ++ queuedAnswers (coreOf s' p).strand ++ future).Perm
          ((cut content).map (answerOf i))) := by
  by_cases hrun : ∃ r, e = .run p r
  · obtain ⟨r, rfl⟩ := hrun
    obtain ⟨hd, rest, c', hstrand, hex, hcore⟩ := execute_of_run h
    obtain ⟨hquiet, hwanted⟩ := hcalm r hd rest rfl hstrand
    have hstrand' : (coreOf s p).strand = hd :: rest := hstrand
    have hissued : issuedIn p s (.run p r) s' = s'.master.jobs.drop s.master.jobs.length := if_pos rfl
    rw [arrival_run, Option.toList_none, List.append_nil, hstrand'] at hall
    have hne : hd ≠ .clearAndTry := by
      rintro rfl
      exact hc.clear (hstrand' ▸ List.mem_cons_self)
    have hclear : .clearAndTry ∉ rest := fun hmem => hc.clear (hstrand' ▸ List.mem_cons_of_mem hd hmem)
    have hpiece : (core { s.clients p with strand := rest }).piece =
        some (assemble (newPiece i (cut content).length) handled) := hc.piece
    rw [hcore, hissued]
    cases ha : queuedAnswer hd with
    | none =>
      -- a handler that carries no answer
      obtain ⟨hjobs, hposts, hkeep⟩ := quiet_act ha (act_execute hex)
      have hkept := hkeep hne _ hpiece (by rw [(assemble_spec _ handled).1]; exact hquiet)
      left
      refine ⟨by rw [hjobs, List.drop_length], handled, ?_, ?_⟩
      · have hrest : Assembling i (cut content).length handled
            (core { s.clients p with strand := rest }) := ⟨hpiece, hclear, hc.more⟩
        exact hrest.quiet (hkept.trans hpiece.symm) hposts
      · have hqueued : queuedAnswers (hd :: rest) = queuedAnswers rest := List.filterMap_cons_none ha
        rw [hposts.queuedAnswers]
        rw [hqueued] at hall
        exact hall
    | some a =>
      have hqueued : queuedAnswers (hd :: rest) = a :: queuedAnswers rest :=
        List.filterMap_cons_some ha
      rw [hqueued] at hall
      obtain ⟨hindex, hlen⟩ := answer_spec (hall.mem_iff.mp (by simp : a ∈ _))
      have hrest : Assembling i (cut content).length handled
          (core { s.clients p with strand := rest }) := ⟨hpiece, hclear, hc.more⟩
      rcases assembling_answer hrest ha hi hindex hlen (hwanted (by rw [ha]; rfl)) hex with
        ⟨hjobs, handled', hc', hperm⟩ | ⟨hlast, hjobs, hqueued'⟩
      · left
        refine ⟨by rw [hjobs, List.drop_length], handled', hc', ?_⟩
        exact (hperm.append_right future).trans hall
      · right
        refine ⟨handled ++ [a], by rw [List.length_append, List.length_singleton, hlast],
          by rw [hjobs, List.drop_left], ?_⟩
        rw [hqueued', List.append_assoc handled]
        exact hall
  · obtain ⟨hissued, hrec⟩ := receives_of_other (fun r heq => hrun ⟨r, heq⟩) h
    left
    refine ⟨hissued, handled, ⟨hrec.piece.trans hc.piece, fun hmem => hc.clear (hrec.clear hmem),
      hc.more⟩, ?_⟩
    rw [hrec.queued, ← List.append_assoc]
    exact hall

theorem issued_cons {cfg : Config} {p : Fin n} {s s1 : State n} {e : Event n} {es : List (Event n)}
    (h : step cfg s e = some s1) :
    issued cfg p s (e :: es) = issuedIn p s e s1 ++ issued cfg p s1 es := by
  rw [issued, h]

theorem arrivals_cons (p : Fin n) (e : Event n) (es : List (Event n)) :
    arrivals p (e :: es) = (arrival p e).toList ++ arrivals p es := by
  unfold arrivals
  cases ha : arrival p e with
  | none => rw [List.filterMap_cons_none ha]; rfl
  | some a => rw [List.filterMap_cons_some ha]; rfl

/-- Without answers a client queues no write job. -/
theorem issued_eq_nil {cfg : Config} {p : Fin n} {s' : State n} : ∀ (es : List (Event n)) {s : State n},
    queuedAnswers (coreOf s p).strand = [] → arrivals p es = [] →
    run (step cfg) s es = some s' →
    issued cfg p s es = [] ∧ queuedAnswers (coreOf s' p).strand = [] := by
  intro es
  induction es with
  | nil =>
    intro s hqueued _ h
    cases h
    exact ⟨rfl, hqueued⟩
  | cons e es ih =>
    intro s hqueued harr h
    obtain ⟨s1, h1, h2⟩ := run_cons h
    rw [arrivals_cons, List.append_eq_nil_iff] at harr
    have hstep : issuedIn p s e s1 = [] ∧ queuedAnswers (coreOf s1 p).strand = [] := by
      by_cases hrun : ∃ r, e = .run p r
      · obtain ⟨r, rfl⟩ := hrun
        obtain ⟨hd, rest, c', hstrand, hex, hcore⟩ := execute_of_run h1
        have hstrand' : (coreOf s p).strand = hd :: rest := hstrand
        rw [hstrand'] at hqueued
        cases ha : queuedAnswer hd with
        | some a =>
          rw [queuedAnswers, List.filterMap_cons_some ha] at hqueued
          cases hqueued
        | none =>
          rw [queuedAnswers, List.filterMap_cons_none ha] at hqueued
          obtain ⟨hjobs, hposts, -⟩ := quiet_act ha (act_execute hex)
          have hissued : issuedIn p s (.run p r) s1 = s1.master.jobs.drop s.master.jobs.length :=
            if_pos rfl
          refine ⟨by rw [hissued, hjobs, List.drop_length], ?_⟩
          rw [hcore, hposts.queuedAnswers]
          exact hqueued
      · obtain ⟨hissued, hrec⟩ := receives_of_other (fun r heq => hrun ⟨r, heq⟩) h1
        exact ⟨hissued, by rw [hrec.queued, hqueued, harr.1]; rfl⟩
    obtain ⟨hissued, hqueued'⟩ := ih hstep.2 harr.2 h2
    exact ⟨by rw [issued_cons h1, hstep.1, hissued]; rfl, hqueued'⟩

/-- **A run of a client that assembles a piece**: `future` are the answers that have not arrived at its
end. Either some answers are still to be handled, or the write job has been queued once. -/
theorem assembling_run {cfg : Config} {p : Fin n} {s' : State n} {i : ℕ} {content : List UInt8}
    {future : List Answer} (hi : i < cfg.total) : ∀ (es : List (Event n)) {s : State n}
    {handled : List Answer}, Assembling i (cut content).length handled (coreOf s p) →
    (handled ++ queuedAnswers (coreOf s p).strand ++ arrivals p es ++ future).Perm
      ((cut content).map (answerOf i)) →
    Along (step cfg) (Calm cfg p i) s es → run (step cfg) s es = some s' →
    (issued cfg p s es = [] ∧ ∃ handled', Assembling i (cut content).length handled' (coreOf s' p) ∧
        (handled' ++ queuedAnswers (coreOf s' p).strand ++ future).Perm
          ((cut content).map (answerOf i))) ∨
      (∃ handled', issued cfg p s es = [⟨i, assemble (newPiece i (cut content).length) handled'⟩] ∧
        handled'.Perm ((cut content).map (answerOf i)) ∧
        queuedAnswers (coreOf s' p).strand = [] ∧ future = []) := by
  intro es
  induction es with
  | nil =>
    intro s handled hc hall _ h
    cases h
    left
    exact ⟨rfl, handled, hc, by simpa [arrivals] using hall⟩
  | cons e es ih =>
    intro s handled hc hall hcalm h
    obtain ⟨s1, h1, h2⟩ := run_cons h
    obtain ⟨hcalm1, hcalm2⟩ := hcalm s1 h1
    rw [arrivals_cons, ← List.append_assoc, List.append_assoc _ (arrivals p es)] at hall
    rcases assembling_step hi hc hall hcalm1 h1 with
      ⟨hissued, handled', hc', hall'⟩ | ⟨handled', hlen, hissued, hall'⟩
    · rw [← List.append_assoc] at hall'
      rw [issued_cons h1, hissued, List.nil_append]
      exact ih hc' hall' hcalm2 h2
    · -- all answers have been handled, and none is left
      right
      have hcount := hall'.length_eq
      simp only [List.length_append, List.length_map] at hcount
      have hqueued : queuedAnswers (coreOf s1 p).strand = [] :=
        List.length_eq_zero_iff.mp (by omega)
      have harr : arrivals p es = [] := List.length_eq_zero_iff.mp (by omega)
      have hfuture : future = [] := List.length_eq_zero_iff.mp (by omega)
      obtain ⟨hnone, hqueued'⟩ := issued_eq_nil es hqueued harr h2
      refine ⟨handled', by rw [issued_cons h1, hissued, hnone]; rfl, ?_, hqueued', hfuture⟩
      rw [hqueued, harr, hfuture] at hall'
      simpa using hall'

/-! ### The strand runs on -/

/-- Only a block can have nowhere to go. -/
theorem execute_isSome {cfg : Config} {r : ℕ} {m : Master} {c : Client} {h : Handler}
    (hblock : ∀ index begin_ data, h = .block index begin_ data → ∃ piece offset,
      c.activePiece = some (piece, offset) ∧ begin_ / mostRequestSize < piece.blocks.length) :
    (execute cfg r m c h).isSome = true := by
  cases h with
  | block index begin_ data =>
    obtain ⟨piece, offset, hact, hslot⟩ := hblock index begin_ data rfl
    dsimp only [execute, storeBlock]
    rw [hact]
    dsimp only
    rw [if_pos hslot]
    split_ifs <;> rfl
  | onChoked =>
    dsimp only [execute]
    cases c.activePiece <;> rfl
  | pieceTimeout =>
    dsimp only [execute]
    cases c.activePiece <;> rfl
  | cancelPiece id =>
    dsimp only [execute]
    split_ifs <;> rfl
  | cancelIfActive id =>
    dsimp only [execute]
    split_ifs <;> rfl
  | keepAlive =>
    dsimp only [execute]
    split_ifs <;> rfl
  | _ => rfl

theorem run_isSome {cfg : Config} {s : State n} {p : Fin n} (hs : (s.clients p).strand ≠ [])
    (hblock : ∀ index begin_ data, .block index begin_ data ∈ (s.clients p).strand →
      ∃ piece, (coreOf s p).piece = some piece ∧ begin_ / mostRequestSize < piece.blocks.length)
    (r : ℕ) : (step cfg s (.run p r)).isSome = true := by
  dsimp only [step, runFirst]
  cases hstrand : (s.clients p).strand with
  | nil => exact absurd hstrand hs
  | cons hd rest =>
    dsimp only
    rw [Option.isSome_map]
    refine execute_isSome fun index begin_ data heq => ?_
    obtain ⟨piece, hpiece, hslot⟩ := hblock index begin_ data
      (by rw [hstrand, heq]; exact List.mem_cons_self)
    cases hact : (s.clients p).activePiece with
    | none =>
      rw [coreOf, core, hact] at hpiece
      cases hpiece
    | some active =>
      obtain rfl : active.1 = piece := by
        rw [coreOf, core, hact] at hpiece
        exact Option.some.inj hpiece
      exact ⟨active.1, active.2, rfl, hslot⟩

/-- A queued answer has its slot. -/
theorem slot_of_queued {i : ℕ} {content : List UInt8} {handled future : List Answer} {c : Core}
    (hc : Assembling i (cut content).length handled c)
    (hall : (handled ++ queuedAnswers c.strand ++ future).Perm ((cut content).map (answerOf i)))
    {index begin_ : ℕ} {data : List UInt8} (hmem : .block index begin_ data ∈ c.strand) :
    ∃ piece, c.piece = some piece ∧ begin_ / mostRequestSize < piece.blocks.length := by
  refine ⟨_, hc.piece, ?_⟩
  have hanswer : (⟨index, begin_, data⟩ : Answer) ∈ queuedAnswers c.strand :=
    List.mem_filterMap.mpr ⟨_, hmem, rfl⟩
  obtain ⟨block, hblock, heq⟩ := List.mem_map.mp
    (hall.mem_iff.mp (List.mem_append_left _ (List.mem_append_right _ hanswer)))
  obtain ⟨k, hk, rfl⟩ := List.mem_map.mp hblock
  obtain rfl : k * mostRequestSize = begin_ := congrArg Answer.begin_ heq
  rw [Nat.mul_div_cancel k (by decide), (assemble_spec _ handled).2.2.1]
  have hlen : (newPiece i (cut content).length).blocks.length = (cut content).length :=
    List.length_replicate
  rw [hlen, cut, List.length_map, List.length_range]
  exact List.mem_range.mp hk

/-- **Pieces are assembled, whatever the order of the answers.** A client has chosen a piece in a call of
`TryToRequestPiece`, and the remote peer answers each of the requests sent there once, in any order;
`future` are the answers that have not arrived at the end of the run. The write job is queued exactly
once, when all answers have arrived and been handled; until then the strand of the client can always
run on. In the job the blocks make up the piece. -/
theorem assembled_run {cfg : Config} {r : ℕ} {m m' : Master} {c c' : Client} {piece : Piece}
    {offset : ℕ} (hcall : tryToRequestPiece cfg r m c = (m', c')) (hnone : c.activePiece = none)
    (hsub : c.isDisconnected = false) (hchosen : c'.activePiece = some (piece, offset))
    {content : List UInt8} (hcontent : content.length = cfg.sizeOf piece.index)
    (hpos : 1 ≤ content.length) (hsize : content.length ≤ 150 * 16384)
    {p : Fin n} {s s' : State n} {es : List (Event n)} {future : List Answer}
    (hstart : (s.clients p).activePiece = c'.activePiece)
    (hfresh : queuedAnswers (s.clients p).strand = [] ∧ .clearAndTry ∉ (s.clients p).strand)
    (hcalm : Along (step cfg) (Calm cfg p piece.index) s es) (hrun : run (step cfg) s es = some s')
    (hanswers : (arrivals p es ++ future).Perm (answers content (requestsSent c c'))) :
    (issued cfg p s es = [] ∨ ∃ assembled, issued cfg p s es = [⟨piece.index, assembled⟩] ∧
        ∀ sorted, sorts assembled.blocks sorted = true →
          contents sorted = content ∧ size sorted = content.length ∧
          ∀ k < content.length, get? sorted k = content[k]?) ∧
      (issued cfg p s es ≠ [] ↔ future = [] ∧ queuedAnswers (s'.clients p).strand = []) ∧
      ((s'.clients p).strand ≠ [] → ∀ r, (step cfg s' (.run p r)).isSome = true) := by
  have hlen : (cut content).length = blockCountOf content.length := by
    rw [cut, List.length_map, List.length_range]
    rfl
  obtain ⟨hpiece, -, htotal, hrequests⟩ := requestsSent_chosen hcall hnone hsub hchosen
    (hcontent ▸ hpos) (hcontent ▸ hsize)
  rw [← hcontent] at hpiece hrequests
  rw [hrequests, answers_requests] at hanswers
  have hcount : 0 < (cut content).length := by
    rw [hlen, blockCountOf]
    unfold mostRequestSize
    omega
  have hc : Assembling piece.index (cut content).length [] (coreOf s p) := by
    refine ⟨?_, hfresh.2, hcount⟩
    rw [coreOf, core, hstart, hchosen, hlen, ← hpiece]
    rfl
  have hall : ([] ++ queuedAnswers (coreOf s p).strand ++ arrivals p es ++ future).Perm
      ((cut content).map (answerOf piece.index)) := by
    have hqueued : queuedAnswers (coreOf s p).strand = [] := hfresh.1
    rw [hqueued]
    exact hanswers
  rcases assembling_run htotal es hc hall hcalm hrun with
    ⟨hissued, handled, hc', hall'⟩ | ⟨handled, hissued, hperm, hqueued, rfl⟩
  · refine ⟨.inl hissued, ⟨fun h => absurd hissued h, ?_⟩, fun hne r => ?_⟩
    · rintro ⟨rfl, hqueued⟩
      have hqueued' : queuedAnswers (coreOf s' p).strand = [] := hqueued
      have hlength := hall'.length_eq
      have hmore := hc'.more
      rw [hqueued', List.append_nil, List.append_nil, List.length_map] at hlength
      omega
    · exact run_isSome hne (fun index begin_ data hmem => slot_of_queued hc' hall' hmem) r
  · refine ⟨.inr ⟨_, hissued, fun sorted hsorted => ?_⟩, ?_, fun hne r => ?_⟩
    · rw [hlen, blocks_assemble hperm] at hsorted
      rw [eq_cut_of_sorts hsorted]
      exact ⟨contents_cut content, size_cut content, fun k hk => get?_cut hk⟩
    · rw [hissued]
      exact ⟨fun _ => ⟨rfl, hqueued⟩, fun _ => List.cons_ne_nil _ _⟩
    · refine run_isSome hne (fun index begin_ data hmem => ?_) r
      have hanswer : (⟨index, begin_, data⟩ : Answer) ∈ queuedAnswers (coreOf s' p).strand :=
        List.mem_filterMap.mpr ⟨_, hmem, rfl⟩
      rw [hqueued] at hanswer
      cases hanswer

/-! ### A piece of two blocks -/

theorem calm_run_iff {cfg : Config} {p q : Fin n} {i r : ℕ} {s : State n} :
    Calm cfg p i s (.run q r) ↔ (q = p → ∀ h ∈ (s.clients p).strand.head?,
      disturbs i h = false ∧ ((queuedAnswer h).isSome → Wanted cfg s.master i)) := by
  constructor
  · rintro hcalm rfl h hh
    obtain ⟨rest, hrest⟩ := List.head?_eq_some_iff.mp hh
    exact hcalm r h rest rfl hrest
  · rintro hcalm r' h rest he hs
    cases he
    exact hcalm rfl h (hs ▸ rfl)

instance (cfg : Config) (m : Master) (i : ℕ) : Decidable (Wanted cfg m i) :=
  inferInstanceAs (Decidable ((cfg.inEndGame m = false → i ∈ m.requestedPieces) ∧ i ∉ m.bitfield))

instance (cfg : Config) (p : Fin n) (i : ℕ) (s : State n) : (e : Event n) → Decidable (Calm cfg p i s e)
  | .run _ _ => decidable_of_iff _ calm_run_iff.symm
  | .arrive _ _ => .isTrue nofun
  | .expire _ => .isTrue nofun
  | .keepAlive _ => .isTrue nofun
  | .fail _ => .isTrue nofun
  | .work _ _ => .isTrue nofun

/-- The second block of piece 0 arrives, and then the first one. -/
def swapped (p : Fin n) : List (Event n) :=
  [.run p 0, .arrive p (.piece 0 16384 [7]), .run p 0, .run p 0, .run p 0,
    .arrive p (.piece 0 0 (List.replicate 16384 1)), .run p 0, .run p 0]

/-- A client that has chosen piece 0 gets its two blocks, and queues the write job. -/
theorem assembled_run_swapped :
    ∃ s s', run (step twoBlocks) (init 1 twoBlocks threeBytesDisk) (offers 0) = some s ∧
      run (step twoBlocks) s (swapped 0) = some s' ∧ issued twoBlocks 0 s (swapped 0) ≠ [] := by
  have htest : ((run (step twoBlocks) (init 1 twoBlocks threeBytesDisk) (offers 0)).any fun s =>
      decide ((s.clients 0).activePiece = some (newPiece 0 2, 16385) ∧
        (queuedAnswers (s.clients 0).strand = [] ∧ .clearAndTry ∉ (s.clients 0).strand) ∧
        Along (step twoBlocks) (Calm twoBlocks 0 0) s (swapped 0)) &&
      (run (step twoBlocks) s (swapped 0)).any fun s' =>
        decide (queuedAnswers (s'.clients 0).strand = [])) = true := by
    decide +kernel
  obtain ⟨s, hoffers, htest⟩ := (Option.any_eq_true _ _).mp htest
  rw [Bool.and_eq_true, decide_eq_true_iff] at htest
  obtain ⟨⟨hactive, hfresh, hcalm⟩, htest⟩ := htest
  obtain ⟨s', hrun, hqueued⟩ := (Option.any_eq_true _ _).mp htest
  refine ⟨s, s', hoffers, hrun, ?_⟩
  have hcall : tryToRequestPiece twoBlocks 0 ⟨∅, ∅, 0, false, []⟩
      { access twoBlocks with peerChoking := false, pieces := {0, 1} } = (_, _) := Prod.mk.eta.symm
  have hchosen : (tryToRequestPiece twoBlocks 0 ⟨∅, ∅, 0, false, []⟩
      { access twoBlocks with peerChoking := false, pieces := {0, 1} }).2.activePiece =
        some (newPiece 0 2, 16385) := rfl
  have hlength : (List.replicate 16384 1 ++ [(7 : UInt8)]).length = 16385 := by
    rw [List.length_append, List.length_replicate]
    rfl
  have hfirst : ((List.replicate 16384 1 ++ [(7 : UInt8)]).drop 0).take 16384 = List.replicate 16384 1 :=
    List.take_left' List.length_replicate
  have hsecond : ((List.replicate 16384 1 ++ [(7 : UInt8)]).drop 16384).take 1 = [7] := by
    rw [List.drop_left' List.length_replicate]
    rfl
  have hanswers : (arrivals 0 (swapped (0 : Fin 1)) ++ []).Perm (answers (List.replicate 16384 1 ++ [7])
      [(0, 0, 16384), (0, 16384, 1)]) := by
    simp only [answers, List.map_cons, List.map_nil, hfirst, hsecond]
    exact List.Perm.swap ..
  exact (assembled_run hcall rfl rfl hchosen hlength (hlength ▸ by decide) (hlength ▸ by decide)
    (hactive.trans hchosen.symm) hfresh hcalm hrun hanswers).2.1.mpr ⟨rfl, of_decide_eq_true hqueued⟩

end CppTorrent.Swarm.Assembly
