import CppTorrent.Swarm.Calls

/-! # The swarm, one critical section at a time

In `Swarm.Model` a handler runs as a whole. Here it does not: the handlers of one client still run one
after the other, but those of other clients and the worker threads run in between. `advance` goes from
one access to the master peer to the next. `TryToRequestPiece` counts the pieces that are done, then
`ChoosePiece` takes its copy of the bitfields, then asks for each piece of the copy whether it is
requested, then marks the piece it has drawn; `OnChoked` and the timeout of a piece unmark it first and
go on later; `OnPieceBlock` asks first whether the piece is requested and then whether it is done; a
piece that is complete is given to a write job before `ClearAndTryRequest` is called; and a write job
unmarks its piece after it has set the bit. What follows an access up to the next one concerns the client
alone and belongs to the same step.

The choice is that of the default strategy. For it, a handler and a write job that nothing interrupts do
here what they do in `Swarm.Model` (`actions_of_step`), so every run there is a run here
(`actions_of_run`). -/

namespace CppTorrent.Swarm.Interleaving

open CppTorrent.Files.Blocks CppTorrent.Files.Storage CppTorrent.Swarm.Model CppTorrent.Swarm.Steps
open CppTorrent.Swarm.Calls CppTorrent.Lib.Runs

/-- Where a client is in a handler. -/
inductive Point where
  /-- in none -/
  | idle
  /-- `TryToRequestPiece` has been called -/
  | calling (h : Handler)
  /-- `ChoosePiece` has been called -/
  | choosing (h : Handler)
  /-- the loop of `ChoosePiece`: the pieces of the copy still to ask for, and `pieces_ids` -/
  | looking (h : Handler) (rest ids : List ℕ)
  /-- `OnChoked` has unmarked the active piece -/
  | dropping
  /-- the timeout has unmarked the active piece -/
  | telling
  /-- the write job of the active piece is queued -/
  | completing
  /-- `OnPieceBlock` has found the piece requested -/
  | receiving (index begin_ : ℕ) (data : List UInt8)
  deriving DecidableEq

/-- The first access of a handler that is not over after it. -/
def firstAccess (cfg : Config) (m : Master) (c : Client) : Handler → Option (Master × Client × Point)
  | .onChoked => c.activePiece.map fun (piece, _) => (m.unmark piece.index, c, .dropping)
  | .pieceTimeout => c.activePiece.map fun (piece, _) => (m.unmark piece.index, c, .telling)
  | .block index begin_ data =>
    match c.activePiece with
    | none => none
    | some (piece, offset) =>
      let piece' := stored piece begin_ data
      if begin_ / mostRequestSize < piece.blocks.length ∧
          piece'.currentBlocksNum = piece'.blockCount then
        some ({ m with jobs := m.jobs ++ [⟨index, piece'⟩] },
          { c with activePiece := some (movedFrom piece', offset) }, .completing)
      else none
  | .message (.piece index begin_ data) =>
    if index < cfg.total ∧ data.length ≤ mostRequestSize ∧ index ∈ m.requestedPieces then
      some (m, c, .receiving index begin_ data)
    else none
  | h => (callOf cfg m c h).map fun c => (m, c, .calling h)

/-- A handler starts. -/
def start (cfg : Config) (m : Master) (c : Client) (h : Handler) : Option (Master × Client × Point) :=
  match firstAccess cfg m c h with
  | some res => some res
  | none => (execute cfg 0 m c h).map fun (m, c) => (m, c, .idle)

/-- The copy of the bitfields that `ChoosePiece` takes. -/
def mismatched (cfg : Config) (m : Master) (c : Client) : List ℕ :=
  (List.range cfg.total).filter fun i => i ∉ m.bitfield ∧ i ∈ c.pieces

/-- A client goes on to its next access to the master peer, or starts its next handler. -/
def advance (cfg : Config) (r : ℕ) (m : Master) (c : Client) :
    Point → Option (Master × Client × Point)
  | .idle =>
    match c.strand with
    | [] => none
    | h :: rest => start cfg m { c with strand := rest } h
  | .calling h =>
    match atChoice cfg m c with
    | some c => some (m, c, .choosing h)
    | none => some (m, resume h (tryToRequestPiece cfg r m c).2, .idle)
  | .choosing h => some (m, c, .looking h (mismatched cfg m c) [])
  | .looking h (i :: rest) ids =>
    some (m, c, .looking h rest (if i ∈ m.requestedPieces then ids else ids ++ [i % 2 ^ 32]))
  | .looking h [] ids =>
    match ids[r % ids.length]? with
    | none => some (m, resume h c, .idle)
    | some i => some (m.mark i, resume h (afterChoice cfg c (some i)), .idle)
  | .dropping => some (m, { c with activePiece := none }, .idle)
  | .telling =>
    match c.activePiece with
    | none => none
    | some (piece, _) =>
      let c := c.postIfSubscribed .tryToRequest
      some (m, if c.peerChoking then c else c.post (.cancelPiece piece.index), .idle)
  | .completing => some (m, c.post .clearAndTry, .idle)
  | .receiving index begin_ data =>
    let c := if index ∈ m.bitfield then c.post (.cancelPiece index)
      else Client.post (.block index begin_ data) { c with waiting := false }
    some (m, doReadHeader c, .idle)

variable {n : ℕ}

/-- The system, where each client is, and the pieces that write jobs have still to unmark. -/
structure Interleaved (n : ℕ) where
  system : State n
  points : Fin n → Point
  ending : List ℕ

/-- What can happen next: what happens in `Swarm.Model`, with handlers and write jobs taken apart. -/
inductive Action (n : ℕ) where
  | arrive (p : Fin n) (msg : Message)
  | expire (p : Fin n)
  | keepAlive (p : Fin n)
  | fail (p : Fin n)
  /-- a client goes on, with a random number -/
  | next (p : Fin n) (r : ℕ)
  /-- a write job runs until it unmarks its piece -/
  | work (k : ℕ) (sorted : List Block)
  /-- a write job unmarks its piece -/
  | unbind (k : ℕ)

/-- A client has moved. -/
def moved (s : Interleaved n) (p : Fin n) (m : Master) (c : Client) (point : Point) : Interleaved n :=
  { s with
    system := { s.system.set p c with master := m }
    points := Function.update s.points p point }

/-- A client goes on. -/
def goOn (cfg : Config) (p : Fin n) (r : ℕ) (s : Interleaved n) : Option (Interleaved n) :=
  (advance cfg r s.system.master (s.system.clients p) (s.points p)).map fun (m, c, point) =>
    let s' := moved s p m c point
    if s.points p = .telling then { s' with system := tryToRequestAgain p s'.system } else s'

/-- The job queued by `TorrentFilesManager::DownloadPiece`, up to `UnbindRequest`. -/
def checkAndWrite (cfg : Config) (req : WriteRequest) (sorted : List Block) (s : State n) :
    Option (State n) :=
  if arePieceValid cfg req.pieceIndex sorted then
    match writePieceToFile cfg.manager s.disk { req.piece with blocks := sorted } with
    | .error _ => none
    | .ok disk => some (setPiece cfg req.pieceIndex { s with disk := disk })
  else some s

/-- One step of the system. -/
def interleavedStep (cfg : Config) (s : Interleaved n) : Action n → Option (Interleaved n)
  | .arrive p msg => (step cfg s.system (.arrive p msg)).map fun t => { s with system := t }
  | .expire p => (step cfg s.system (.expire p)).map fun t => { s with system := t }
  | .keepAlive p => (step cfg s.system (.keepAlive p)).map fun t => { s with system := t }
  | .fail p => (step cfg s.system (.fail p)).map fun t => { s with system := t }
  | .next p r => goOn cfg p r s
  | .work k sorted =>
    match s.system.master.jobs[k]? with
    | none => none
    | some req =>
      if sorts req.piece.blocks sorted then
        (checkAndWrite cfg req sorted { s.system with
          master := { s.system.master with jobs := s.system.master.jobs.eraseIdx k } }).map
            fun t => { s with system := t, ending := s.ending ++ [req.pieceIndex] }
      else none
  | .unbind k =>
    match s.ending[k]? with
    | none => none
    | some i =>
      some { s with
        system := { s.system with master := s.system.master.unmark i }
        ending := s.ending.eraseIdx k }

/-- No handler and no write job is under way. -/
def atRest (s : State n) : Interleaved n := ⟨s, fun _ => .idle, []⟩

/-- A write job marks and unmarks nothing before its end. -/
theorem checkAndWrite_spec {cfg : Config} {req : WriteRequest} {sorted : List Block} {s t : State n}
    (h : checkAndWrite cfg req sorted s = some t) :
    t.master.requestedPieces = s.master.requestedPieces ∧ t.master.jobs = s.master.jobs ∧
      s.master.bitfield ⊆ t.master.bitfield ∧ ∀ q, Told cfg (coreOf s q) (coreOf t q) := by
  unfold checkAndWrite at h
  split_ifs at h
  · cases hwrite : writePieceToFile cfg.manager s.disk { req.piece with blocks := sorted } with
    | error err => rw [hwrite] at h; cases h
    | ok disk =>
      rw [hwrite] at h
      cases h
      obtain ⟨-, hbits, hreq, hjobs, -, htold⟩ :=
        setPiece_spec cfg req.pieceIndex { s with disk := disk }
      refine ⟨hreq, hjobs, ?_, htold⟩
      rw [hbits]
      exact Finset.subset_insert _ _
  · cases h
    exact ⟨rfl, rfl, Finset.Subset.refl _, fun _ => .nothing⟩

/-! ### Handlers that nothing interrupts -/

theorem moved_moved (s : Interleaved n) (p : Fin n) (m m' : Master) (c c' : Client)
    (point point' : Point) :
    moved (moved s p m c point) p m' c' point' = moved s p m' c' point' := by
  simp only [moved, State.set, Function.update_idem]

theorem moved_self (s : Interleaved n) (p : Fin n) :
    moved s p s.system.master (s.system.clients p) (s.points p) = s := by
  simp only [moved, State.set, Function.update_eq_self]

/-- A step of a client that has moved. -/
theorem goOn_moved {cfg : Config} {s : Interleaved n} {p : Fin n} {r : ℕ} {m m' : Master}
    {c c' : Client} {point point' : Point} (hadv : advance cfg r m c point = some (m', c', point')) :
    goOn cfg p r (moved s p m c point) = some (if point = .telling then
      { moved s p m' c' point' with system := tryToRequestAgain p (moved s p m' c' point').system }
      else moved s p m' c' point') := by
  have hc : (moved s p m c point).system.clients p = c := Function.update_self ..
  have hp : (moved s p m c point).points p = point := Function.update_self ..
  have hadv' : advance cfg r (moved s p m c point).system.master
      ((moved s p m c point).system.clients p) ((moved s p m c point).points p) =
        some (m', c', point') := by
    rw [hc, hp]
    exact hadv
  unfold goOn
  rw [hadv', Option.map_some, hp]
  dsimp only
  rw [moved_moved]

theorem run_next {cfg : Config} {s : Interleaved n} {p : Fin n} {r : ℕ} {m m' : Master}
    {c c' : Client} {point point' : Point} (hadv : advance cfg r m c point = some (m', c', point'))
    (hpoint : point ≠ .telling) (actions : List (Action n)) :
    run (interleavedStep cfg) (moved s p m c point) (.next p r :: actions) =
      run (interleavedStep cfg) (moved s p m' c' point') actions := by
  have hstep : interleavedStep cfg (moved s p m c point) (.next p r) =
      some (moved s p m' c' point') := (goOn_moved hadv).trans (congrArg some (if_neg hpoint))
  rw [run, hstep]
  rfl

/-- **The loop of `ChoosePiece`**: it keeps the pieces that are not requested. -/
theorem run_looking {cfg : Config} {s : Interleaved n} {p : Fin n} {r : ℕ} {m : Master} {c : Client}
    {h : Handler} (actions : List (Action n)) :
    ∀ rest ids : List ℕ,
      run (interleavedStep cfg) (moved s p m c (.looking h rest ids))
          (List.replicate rest.length (.next p r) ++ actions) =
        run (interleavedStep cfg) (moved s p m c (.looking h []
          (ids ++ (rest.filter fun i => i ∉ m.requestedPieces).map (· % 2 ^ 32)))) actions := by
  intro rest
  induction rest with
  | nil =>
    intro ids
    rw [List.filter_nil, List.map_nil, List.append_nil]
    rfl
  | cons i rest ih =>
    intro ids
    have hadv : advance cfg r m c (.looking h (i :: rest) ids) = some (m, c,
        .looking h rest (if i ∈ m.requestedPieces then ids else ids ++ [i % 2 ^ 32])) := rfl
    rw [List.length_cons, List.replicate_succ, List.cons_append, run_next hadv nofun, ih]
    by_cases hreq : i ∈ m.requestedPieces
    · rw [if_pos hreq, List.filter_cons_of_neg (by simpa using hreq)]
    · rw [if_neg hreq, List.filter_cons_of_pos (by simpa using hreq), List.map_cons,
        List.append_assoc]
      rfl

/-- The copy without the requested pieces is what `ChoosePiece` chooses from. -/
theorem filter_mismatched {cfg : Config} {m : Master} {c : Client} (hdefault : cfg.optimal = false) :
    ((mismatched cfg m c).filter fun i => i ∉ m.requestedPieces).map (· % 2 ^ 32) =
      piecesIds cfg m c := by
  have hend : cfg.inEndGame m = false := by rw [Config.inEndGame, hdefault, Bool.false_and]
  have hfilter : ((mismatched cfg m c).filter fun i => i ∉ m.requestedPieces) =
      available cfg m c := by
    unfold mismatched available
    rw [List.filter_filter]
    refine List.filter_congr fun i _ => ?_
    rw [hend, Bool.eq_iff_iff]
    simp only [Bool.and_eq_true, decide_eq_true_eq, Bool.false_eq_true, false_or]
    tauto
  rw [hfilter]
  rfl

/-- What the first access of a handler can be. -/
inductive FirstAccess (cfg : Config) (m : Master) (c : Client) :
    Handler → Master → Client → Point → Prop
  | chokes (piece : Piece) (offset : ℕ) (hact : c.activePiece = some (piece, offset)) :
      FirstAccess cfg m c .onChoked (m.unmark piece.index) c .dropping
  | timesOut (piece : Piece) (offset : ℕ) (hact : c.activePiece = some (piece, offset)) :
      FirstAccess cfg m c .pieceTimeout (m.unmark piece.index) c .telling
  | completes (index begin_ : ℕ) (data : List UInt8) (piece : Piece) (offset : ℕ)
      (hact : c.activePiece = some (piece, offset))
      (hslot : begin_ / mostRequestSize < piece.blocks.length)
      (hlast : (stored piece begin_ data).currentBlocksNum = (stored piece begin_ data).blockCount) :
      FirstAccess cfg m c (.block index begin_ data)
        { m with jobs := m.jobs ++ [⟨index, stored piece begin_ data⟩] }
        { c with activePiece := some (movedFrom (stored piece begin_ data), offset) } .completing
  | receives (index begin_ : ℕ) (data : List UInt8) (hlt : index < cfg.total)
      (hlen : data.length ≤ mostRequestSize) (hreq : index ∈ m.requestedPieces) :
      FirstAccess cfg m c (.message (.piece index begin_ data)) m c (.receiving index begin_ data)
  | calls {h : Handler} {c' : Client} (hcall : callOf cfg m c h = some c') :
      FirstAccess cfg m c h m c' (.calling h)

theorem firstAccess_spec {cfg : Config} {m m' : Master} {c c' : Client} {h : Handler}
    {point : Point} (hfirst : firstAccess cfg m c h = some (m', c', point)) :
    FirstAccess cfg m c h m' c' point := by
  have hcalls : (callOf cfg m c h).map (fun c => (m, c, Point.calling h)) = some (m', c', point) →
      FirstAccess cfg m c h m' c' point := by
    intro hmap
    obtain ⟨c1, hcall, heq⟩ := Option.map_eq_some_iff.mp hmap
    cases heq
    exact .calls hcall
  cases h with
  | onChoked =>
    obtain ⟨⟨piece, offset⟩, hact, heq⟩ := Option.map_eq_some_iff.mp hfirst
    cases heq
    exact .chokes piece offset hact
  | pieceTimeout =>
    obtain ⟨⟨piece, offset⟩, hact, heq⟩ := Option.map_eq_some_iff.mp hfirst
    cases heq
    exact .timesOut piece offset hact
  | block index begin_ data =>
    dsimp only [firstAccess] at hfirst
    cases hact : c.activePiece with
    | none => rw [hact] at hfirst; cases hfirst
    | some active =>
      obtain ⟨piece, offset⟩ := active
      rw [hact] at hfirst
      dsimp only at hfirst
      split_ifs at hfirst with hlast
      cases hfirst
      exact .completes index begin_ data piece offset hact hlast.1 hlast.2
  | message msg =>
    cases msg with
    | piece index begin_ data =>
      dsimp only [firstAccess] at hfirst
      split_ifs at hfirst with hreq
      cases hfirst
      exact .receives index begin_ data hreq.1 hreq.2.1 hreq.2.2
    | _ => exact hcalls hfirst
  | _ => exact hcalls hfirst

/-- A handler that is over after its first access does not call `TryToRequestPiece` for a client
without an active piece. -/
theorem callOf_of_firstAccess {cfg : Config} {m : Master} {c : Client} {h : Handler}
    (hfirst : firstAccess cfg m c h = none) : callOf cfg m c h = none := by
  have hcalls : (callOf cfg m c h).map (fun c => (m, c, Point.calling h)) = none →
      callOf cfg m c h = none := Option.map_eq_none_iff.mp
  cases h with
  | message msg =>
    cases msg with
    | piece index begin_ data => rfl
    | _ => exact hcalls hfirst
  | onChoked => rfl
  | pieceTimeout => rfl
  | block index begin_ data => rfl
  | _ => exact hcalls hfirst

/-- The end of `ChoosePiece`: it draws one of the pieces it has kept. -/
theorem advance_draws {cfg : Config} (hdefault : cfg.optimal = false) (r : ℕ) (m : Master) (c : Client)
    (h : Handler) : advance cfg r m c (.looking h [] (piecesIds cfg m c)) =
      some ((choosePiece cfg r m c).2, resume h (afterChoice cfg c (choosePiece cfg r m c).1),
        .idle) := by
  have hend : cfg.inEndGame m = false := by rw [Config.inEndGame, hdefault, Bool.false_and]
  dsimp only [advance, choosePiece]
  rw [hend]
  cases (piecesIds cfg m c)[r % (piecesIds cfg m c).length]? with
  | none => rfl
  | some i => rfl

/-- **`TryToRequestPiece` that nothing interrupts.** -/
theorem run_calling {cfg : Config} (hdefault : cfg.optimal = false) (s : Interleaved n) (p : Fin n)
    (r : ℕ) (m : Master) (c : Client) (h : Handler) :
    ∃ actions, run (interleavedStep cfg) (moved s p m c (.calling h)) actions =
      some (moved s p (tryToRequestPiece cfg r m c).1 (resume h (tryToRequestPiece cfg r m c).2)
        .idle) := by
  cases hat : atChoice cfg m c with
  | none =>
    have hadv : advance cfg r m c (.calling h) =
        some (m, resume h (tryToRequestPiece cfg r m c).2, .idle) := by
      dsimp only [advance]
      rw [hat]
    refine ⟨[.next p r], ?_⟩
    rw [run_next hadv nofun, (tryToRequestPiece_keeps hat r).1]
    rfl
  | some c' =>
    have hadv : advance cfg r m c (.calling h) = some (m, c', .choosing h) := by
      dsimp only [advance]
      rw [hat]
    have hcopy : advance cfg r m c' (.choosing h) =
        some (m, c', .looking h (mismatched cfg m c') []) := rfl
    refine ⟨.next p r :: .next p r ::
      (List.replicate (mismatched cfg m c').length (.next p r) ++ [.next p r]), ?_⟩
    rw [run_next hadv nofun, run_next hcopy nofun, run_looking, List.nil_append,
      filter_mismatched hdefault, run_next (advance_draws hdefault r m c' h) nofun,
      tryToRequestPiece_of_atChoice hat]
    rfl

/-- **A handler that nothing interrupts** does what it does as a whole; the timeout of a piece tells the
other clients besides. -/
theorem run_handler {cfg : Config} (hdefault : cfg.optimal = false) {s : Interleaved n} {p : Fin n}
    {r : ℕ} {m m' : Master} {c c' : Client} {h : Handler} {rest : List Handler}
    (hstrand : c.strand = h :: rest)
    (hex : execute cfg r m { c with strand := rest } h = some (m', c'))
    (htold : callsTryToRequestAgain { c with strand := rest } h = false) :
    ∃ actions, run (interleavedStep cfg) (moved s p m c .idle) actions =
      some (moved s p m' c' .idle) := by
  have hidle : advance cfg r m c .idle = start cfg m { c with strand := rest } h := by
    dsimp only [advance]
    rw [hstrand]
  cases hfirst : firstAccess cfg m { c with strand := rest } h with
  | none =>
    have hchoice : choiceOf cfg m { c with strand := rest } h = none := by
      rw [choiceOf, callOf_of_firstAccess hfirst]
      rfl
    have hadv : advance cfg r m c .idle = some (m', c', .idle) := by
      rw [hidle, start, hfirst]
      dsimp only
      rw [execute_of_no_choice hchoice 0 r, hex]
      rfl
    exact ⟨[.next p r], run_next hadv Point.noConfusion []⟩
  | some res =>
    obtain ⟨m1, c1, point⟩ := res
    have hadv : advance cfg r m c .idle = some (m1, c1, point) := by
      rw [hidle, start, hfirst]
    -- it goes on as it does without interruption
    have htwice : ∀ {point}, advance cfg r m c .idle = some (m1, c1, point) → point ≠ .telling →
        advance cfg r m1 c1 point = some (m', c', .idle) →
        ∃ actions, run (interleavedStep cfg) (moved s p m c .idle) actions =
          some (moved s p m' c' .idle) := by
      intro point hfirst hpoint hsecond
      refine ⟨[.next p r, .next p r], ?_⟩
      rw [run_next hfirst Point.noConfusion, run_next hsecond hpoint]
      rfl
    cases firstAccess_spec hfirst with
    | chokes piece offset hact =>
      dsimp only [execute] at hex
      change c.activePiece = some (piece, offset) at hact
      rw [hact] at hex
      cases hex
      exact htwice hadv Point.noConfusion rfl
    | timesOut piece offset hact =>
      change c.activePiece = some (piece, offset) at hact
      rw [callsTryToRequestAgain, hact] at htold
      cases htold
    | completes index begin_ data piece offset hact hslot hlast =>
      change c.activePiece = some (piece, offset) at hact
      dsimp only [execute, storeBlock] at hex
      rw [hact] at hex
      dsimp only at hex
      rw [if_pos hslot, if_pos hlast] at hex
      cases hex
      exact htwice hadv Point.noConfusion rfl
    | receives index begin_ data hlt hlen hreq =>
      have hex' : onMessage cfg r m { c with strand := rest } (.piece index begin_ data) = (m', c') :=
        Option.some.inj hex
      dsimp only [onMessage, handleResponse, onPieceBlock] at hex'
      rw [if_neg (by omega), if_neg (by omega), if_neg (by simp [hreq])] at hex'
      cases hex'
      exact htwice hadv Point.noConfusion rfl
    | calls hcall =>
      rw [execute_of_callOf hcall] at hex
      cases hex
      obtain ⟨actions, hrun⟩ := run_calling hdefault s p r m c1 h
      refine ⟨.next p r :: actions, ?_⟩
      rw [run_next hadv Point.noConfusion]
      exact hrun

theorem moved_atRest (s : State n) (p : Fin n) (m : Master) (c : Client) :
    moved (atRest s) p m c .idle = atRest { s.set p c with master := m } := by
  have hpoints : Function.update (fun _ : Fin n => Point.idle) p .idle = fun _ => .idle :=
    Function.update_eq_self p _
  unfold moved atRest
  dsimp only
  rw [hpoints]

/-- The timeout of a piece that nothing interrupts. -/
theorem run_timeout {cfg : Config} {s : State n} {p : Fin n} {r : ℕ} {m' : Master} {c' : Client}
    {h : Handler} {rest : List Handler} (hstrand : (s.clients p).strand = h :: rest)
    (hex : execute cfg r s.master { s.clients p with strand := rest } h = some (m', c'))
    (htold : callsTryToRequestAgain { s.clients p with strand := rest } h = true) :
    run (interleavedStep cfg) (atRest s) [.next p r, .next p r] =
      some (atRest (tryToRequestAgain p { s.set p c' with master := m' })) := by
  obtain ⟨hh, hsome⟩ := Bool.and_eq_true_iff.mp htold
  obtain rfl := of_decide_eq_true hh
  obtain ⟨⟨piece, offset⟩, hact⟩ := Option.isSome_iff_exists.mp hsome
  change (s.clients p).activePiece = some (piece, offset) at hact
  dsimp only [execute] at hex
  rw [hact] at hex
  obtain ⟨hm, hc⟩ := Prod.mk.inj (Option.some.inj hex)
  have hadv : advance cfg r s.master (s.clients p) .idle =
      some (s.master.unmark piece.index, { s.clients p with strand := rest }, .telling) := by
    dsimp only [advance]
    rw [hstrand]
    dsimp only [start, firstAccess]
    rw [hact]
    rfl
  have hstart : moved (atRest s) p s.master (s.clients p) .idle = atRest s :=
    moved_self (atRest s) p
  have hsecond : advance cfg r (s.master.unmark piece.index) { s.clients p with strand := rest }
      .telling = some (m', c', .idle) := by
    dsimp only [advance]
    rw [hact, ← hm, ← hc]
  have htell : interleavedStep cfg (moved (atRest s) p (s.master.unmark piece.index)
      { s.clients p with strand := rest } .telling) (.next p r) = some _ :=
    (goOn_moved hsecond).trans (congrArg some (if_pos rfl))
  rw [← hstart, run_next hadv nofun, run, htell, moved_atRest]
  rfl

theorem downloadPiece_eq (cfg : Config) (req : WriteRequest) (sorted : List Block) (s : State n) :
    downloadPiece cfg req sorted s = (checkAndWrite cfg req sorted s).map fun t =>
      { t with master := t.master.unmark req.pieceIndex } := by
  unfold downloadPiece checkAndWrite
  dsimp only
  split_ifs
  · cases writePieceToFile cfg.manager s.disk { req.piece with blocks := sorted } with
    | error err => rfl
    | ok disk => rfl
  · rfl

/-- **A step of the model is a run here.** -/
theorem actions_of_step {cfg : Config} (hdefault : cfg.optimal = false) {s s' : State n}
    {e : Event n} (h : step cfg s e = some s') :
    ∃ actions, run (interleavedStep cfg) (atRest s) actions = some (atRest s') := by
  -- one action does what the event does
  have hone : ∀ {a : Action n}, interleavedStep cfg (atRest s) a =
      (step cfg s e).map (fun t => { atRest s with system := t }) →
      ∃ actions, run (interleavedStep cfg) (atRest s) actions = some (atRest s') := by
    intro a ha
    rw [h] at ha
    refine ⟨[a], ?_⟩
    rw [run, ha]
    rfl
  cases e with
  | arrive p msg => exact hone (a := .arrive p msg) rfl
  | expire p => exact hone (a := .expire p) rfl
  | keepAlive p => exact hone (a := .keepAlive p) rfl
  | fail p => exact hone (a := .fail p) rfl
  | run p r =>
    dsimp only [step, runFirst] at h
    cases hstrand : (s.clients p).strand with
    | nil => rw [hstrand] at h; cases h
    | cons hd rest =>
      rw [hstrand] at h
      obtain ⟨⟨m', c'⟩, hex, rfl⟩ := Option.map_eq_some_iff.mp h
      dsimp only
      by_cases htold : callsTryToRequestAgain { s.clients p with strand := rest } hd = true
      · rw [if_pos htold]
        exact ⟨_, run_timeout hstrand hex htold⟩
      · rw [if_neg htold]
        obtain ⟨actions, hrun⟩ := run_handler hdefault (s := atRest s) (p := p) hstrand hex
          (Bool.eq_false_iff.mpr htold)
        have hstart : moved (atRest s) p s.master (s.clients p) .idle = atRest s :=
          moved_self (atRest s) p
        rw [hstart, moved_atRest] at hrun
        exact ⟨actions, hrun⟩
  | work k sorted =>
    dsimp only [step] at h
    cases hjob : s.master.jobs[k]? with
    | none => rw [hjob] at h; cases h
    | some req =>
      rw [hjob] at h
      dsimp only at h
      split_ifs at h with hsorts
      rw [downloadPiece_eq] at h
      obtain ⟨t, hwrite, rfl⟩ := Option.map_eq_some_iff.mp h
      have hwork : interleavedStep cfg (atRest s) (.work k sorted) =
          some { atRest t with ending := [req.pieceIndex] } := by
        dsimp only [interleavedStep, atRest]
        rw [hjob]
        dsimp only
        rw [if_pos hsorts, hwrite]
        rfl
      refine ⟨[.work k sorted, .unbind 0], ?_⟩
      rw [run, hwork]
      rfl

/-- **A run of the model is a run here.** -/
theorem actions_of_run {cfg : Config} (hdefault : cfg.optimal = false) {es : List (Event n)} :
    ∀ {s s' : State n}, run (step cfg) s es = some s' →
      ∃ actions, run (interleavedStep cfg) (atRest s) actions = some (atRest s') := by
  induction es with
  | nil =>
    intro s s' h
    cases h
    exact ⟨[], rfl⟩
  | cons e es ih =>
    intro s s' h
    obtain ⟨s1, h1, h2⟩ := run_cons h
    obtain ⟨first, hfirst⟩ := actions_of_step hdefault h1
    obtain ⟨rest, hrest⟩ := ih h2
    refine ⟨first ++ rest, ?_⟩
    rw [run_append, hfirst]
    exact hrest

end CppTorrent.Swarm.Interleaving
