import CppTorrent.Swarm.Advance
import CppTorrent.Swarm.Progress

/-! # One peer for each piece

`requested_pieces_` is there so that two clients do not download the same piece. A client that downloads
a piece has it marked, or it is about to give it up: the handler that resets its active piece is queued,
or will be at its next step. So a client that marks a piece is the only one to download it, if

* the piece is not marked already. `ChoosePiece` asks for that before it draws the piece, and another
  client can have marked it since;
* no other client is about to give it up. The timeout of a piece, a choke and the end of a write job
  unmark the piece of a client that has not given it up yet;
* nobody unmarks the piece of a client that is not about to give it up, as the job of a block sent under
  another index does, or a client that is no longer subscribed.

Then no two subscribed clients download the same piece in any state of the run (`exclusive_run`). Two
clients that look for a piece at the same time already do (`not_exclusive_race`). -/

namespace CppTorrent.Swarm.OnePeer

open CppTorrent.Files.Blocks CppTorrent.Files.Storage CppTorrent.Swarm.Model CppTorrent.Swarm.Steps
open CppTorrent.Swarm.Interleaving CppTorrent.Swarm.Holding CppTorrent.Swarm.Advance
open CppTorrent.Swarm.Progress CppTorrent.Lib.Runs

variable {n : ℕ}

/-- The client is subscribed and piece `i` is its active piece. -/
def Downloads (s : Interleaved n) (p : Fin n) (i : ℕ) : Prop :=
  (coreOf s.system p).isDisconnected = false ∧ activeIndex (coreOf s.system p) = some i

/-- The client is about to give up piece `i`. -/
def GivesUp (s : Interleaved n) (p : Fin n) (i : ℕ) : Prop :=
  Leaving (coreOf s.system p) (s.points p) i

/-- No two subscribed clients have an active piece of the same index. -/
def Exclusive (s : Interleaved n) : Prop :=
  ∀ p q i, p ≠ q → Downloads s p i → ¬Downloads s q i

/-- A subscribed client only marks a piece that is not marked and that no other client is about to give
up, and a piece is only unmarked if every other client that downloads it is about to give it up. -/
def Careful (s : Interleaved n) : Action n → Prop
  | .next p r =>
    (∀ i, marks r (s.points p) = some i → (coreOf s.system p).isDisconnected = false →
      i ∉ s.system.master.requestedPieces ∧ ∀ q, q ≠ p → Downloads s q i → ¬GivesUp s q i) ∧
    ∀ i, unmarks (coreOf s.system p) (s.points p) = some i →
      ∀ q, q ≠ p → Downloads s q i → GivesUp s q i
  | .unbind k => ∀ i, s.ending[k]? = some i → ∀ q, Downloads s q i → GivesUp s q i
  | _ => True

/-! ### The system -/

theorem posted_queued {c c' : Core} (h : Queued c c') : Posted c c' := by
  cases h with
  | message msg => exact ⟨rfl, rfl, rfl, fun _ hmem => List.mem_append_left _ hmem⟩
  | timeout => exact (Posted.refl c).post _
  | keepAlive => exact (Posted.refl c).post _
  | disconnect => exact (Posted.refl c).post _

theorem posted_told {cfg : Config} {c c' : Core} (h : Told cfg c c') : Posted c c' := by
  cases h with
  | nothing => exact Posted.refl c
  | tryToRequest => exact (Posted.refl c).post _
  | cancelIfActive i => exact (Posted.refl c).post _

/-- No piece is downloaded twice, and every client holds its piece. -/
structure Guarded (s : Interleaved n) : Prop where
  exclusive : Exclusive s
  holds : ∀ p, Holds s.system.master.requestedPieces (coreOf s.system p) (s.points p)

theorem guarded_started (cfg : Config) (disk : Disk) (isCompleted : Bool) :
    Guarded (atRest (started n cfg disk isCompleted)) := by
  refine ⟨fun p q i _ hp => ?_, fun p => holds_of_none rfl nofun⟩
  cases hp.2

/-- A piece that another client downloads is marked, or that client is about to give it up. -/
theorem Guarded.marked {s : Interleaved n} (hs : Guarded s) {q : Fin n} {i : ℕ}
    (hq : Downloads s q i) : i ∈ s.system.master.requestedPieces ∨ GivesUp s q i :=
  (hs.holds q).marked hq.1 i hq.2

theorem downloads_of_posted {s s' : Interleaved n} {q : Fin n} {i : ℕ}
    (hc : Posted (coreOf s.system q) (coreOf s'.system q)) (hq : Downloads s' q i) :
    Downloads s q i :=
  ⟨hc.subscribed.symm.trans hq.1, hc.activeIndex.symm.trans hq.2⟩

/-- No client moves; pieces are unmarked that the clients are about to give up. -/
theorem Guarded.posted {s s' : Interleaved n} (hs : Guarded s)
    (hc : ∀ q, Posted (coreOf s.system q) (coreOf s'.system q)) (hpoints : s'.points = s.points)
    (hreq : ∀ i ∈ s.system.master.requestedPieces, i ∈ s'.system.master.requestedPieces ∨
      ∀ q, Downloads s q i → GivesUp s q i) : Guarded s' := by
  refine ⟨fun p q i hne hp hq => ?_, fun q => ?_⟩
  · exact hs.exclusive p q i hne (downloads_of_posted (hc p) hp) (downloads_of_posted (hc q) hq)
  · rw [hpoints]
    refine (hs.holds q).posted (hc q) fun i hsub hactive hmem => ?_
    rcases hreq i hmem with hmem' | hgives
    · exact .inl hmem'
    · exact .inr (hgives q ⟨hsub, hactive⟩)

/-- **A step of a client keeps the guard**, if the client marks and unmarks with care. -/
theorem Guarded.goes {s s' : Interleaved n} {p : Fin n} {r : ℕ} (hs : Guarded s)
    (hcareful : Careful s (.next p r))
    (hgoes : Goes r s.system.master (coreOf s.system p) (s.points p) s'.system.master
      (coreOf s'.system p) (s'.points p))
    (hc : ∀ q, q ≠ p → Posted (coreOf s.system q) (coreOf s'.system q))
    (hpoints : ∀ q, q ≠ p → s'.points q = s.points q) : Guarded s' := by
  obtain ⟨hmarks, hunmarks⟩ := hcareful
  -- the piece of `p` is the one it had, or one that it has marked now
  have hother : ∀ q i, q ≠ p → Downloads s' p i → ¬Downloads s' q i := by
    intro q i hne hp hq
    have hq' := downloads_of_posted (hc q hne) hq
    have hsub := hgoes.subscribed hp.1
    rcases hgoes.active i hp.2 with hactive | hmark
    · exact hs.exclusive p q i hne.symm ⟨hsub, hactive⟩ hq'
    · obtain ⟨hfree, hleaving⟩ := hmarks i hmark hsub
      rcases hs.marked hq' with hmem | hgives
      · exact hfree hmem
      · exact hleaving q hne hq' hgives
  refine ⟨fun p1 p2 i hne h1 h2 => ?_, fun q => ?_⟩
  · by_cases hp1 : p1 = p
    · subst hp1
      exact hother p2 i hne.symm h1 h2
    · by_cases hp2 : p2 = p
      · subst hp2
        exact hother p1 i hp1 h2 h1
      · exact hs.exclusive p1 p2 i hne (downloads_of_posted (hc p1 hp1) h1)
          (downloads_of_posted (hc p2 hp2) h2)
  · by_cases hq : q = p
    · subst hq
      exact hgoes.holds (hs.holds q)
    · rw [hpoints q hq]
      refine (hs.holds q).posted (hc q hq) fun i hsub hactive hmem => ?_
      rcases hgoes.requested i hmem with hmem' | hun
      · exact .inl hmem'
      · exact .inr (hunmarks i hun q hq ⟨hsub, hactive⟩)

/-- The socket or a timer of a client queues a handler. -/
theorem guarded_queued (cfg : Config) {s s' : Interleaved n} {e : Event n} (hs : Guarded s)
    (he : isQueued e = true)
    (h : (step cfg s.system e).map (fun t => { s with system := t }) = some s') : Guarded s' := by
  obtain ⟨t, hstep, rfl⟩ := Option.map_eq_some_iff.mp h
  cases step_moves hstep with
  | queues p hp hothers hmaster =>
    refine hs.posted (fun q => ?_) rfl fun i hi => .inl ?_
    · by_cases hq : q = p
      · subst hq
        exact posted_queued hp
      · rw [show coreOf t q = coreOf s.system q from hothers q hq]
        exact Posted.refl _
    · rw [show t.master = s.system.master from hmaster]
      exact hi
  | _ => cases he

theorem guarded_goOn {cfg : Config} {s s' : Interleaved n} {p : Fin n} {r : ℕ} (hs : Guarded s)
    (hcareful : Careful s (.next p r)) (h : goOn cfg p r s = some s') : Guarded s' := by
  obtain ⟨⟨m, c, point⟩, hadv, rfl⟩ := Option.map_eq_some_iff.mp h
  have hgoes := goes_advance hadv
  have hself : coreOf (moved s p m c point).system p = core c := coreOf_set_self s.system p c
  have hothers : ∀ q, q ≠ p → coreOf (moved s p m c point).system q = coreOf s.system q :=
    fun q hq => coreOf_set_of_ne s.system c hq
  have hpoint : (moved s p m c point).points p = point := Function.update_self ..
  have hpoints : ∀ q, q ≠ p → (moved s p m c point).points q = s.points q :=
    fun q hq => Function.update_of_ne hq _ _
  have hmoved : Guarded (moved s p m c point) := by
    refine hs.goes hcareful ?_ (fun q hq => ?_) hpoints
    · rw [hself, hpoint]
      exact hgoes
    · rw [hothers q hq]
      exact Posted.refl _
  dsimp only
  split_ifs
  · refine hmoved.posted (fun q => ?_) rfl fun i hi => .inl hi
    change Posted (core _) (core (if q = p then _ else _))
    split_ifs
    · exact Posted.refl _
    · rw [core_postIfSubscribed]
      exact (Posted.refl _).postIfSubscribed _
  · exact hmoved

/-- **A step keeps the guard.** -/
theorem guarded_step {cfg : Config} {s s' : Interleaved n} {a : Action n} (hs : Guarded s)
    (hcareful : Careful s a) (h : interleavedStep cfg s a = some s') : Guarded s' := by
  cases a with
  | arrive p msg => exact guarded_queued cfg (e := .arrive p msg) hs rfl h
  | expire p => exact guarded_queued cfg (e := .expire p) hs rfl h
  | keepAlive p => exact guarded_queued cfg (e := .keepAlive p) hs rfl h
  | fail p => exact guarded_queued cfg (e := .fail p) hs rfl h
  | next p r => exact guarded_goOn hs hcareful h
  | work k sorted =>
    dsimp only [interleavedStep] at h
    cases hget : s.system.master.jobs[k]? with
    | none => rw [hget] at h; cases h
    | some req =>
      rw [hget] at h
      dsimp only at h
      split_ifs at h
      obtain ⟨t, hwrite, rfl⟩ := Option.map_eq_some_iff.mp h
      obtain ⟨hreq, -, -, htold⟩ := checkAndWrite_spec hwrite
      refine hs.posted (fun q => posted_told (htold q)) rfl fun i hi => .inl ?_
      rw [show t.master.requestedPieces = s.system.master.requestedPieces from hreq]
      exact hi
  | unbind k =>
    dsimp only [interleavedStep] at h
    cases hget : s.ending[k]? with
    | none => rw [hget] at h; cases h
    | some i =>
      rw [hget] at h
      cases h
      refine hs.posted (fun q => Posted.refl _) rfl fun j hj => ?_
      by_cases hne : j = i
      · subst hne
        exact .inr (hcareful j hget)
      · exact .inl (Finset.mem_erase.mpr ⟨hne, hj⟩)

/-- **In every state of every run whose steps mark and unmark with care, no two subscribed clients have
an active piece of the same index.** -/
theorem exclusive_run {cfg : Config} {disk : Disk} {isCompleted : Bool} {actions : List (Action n)}
    {s : Interleaved n}
    (hcareful : Along (interleavedStep cfg) Careful (atRest (started n cfg disk isCompleted)) actions)
    (hrun : run (interleavedStep cfg) (atRest (started n cfg disk isCompleted)) actions = some s) :
    Exclusive s :=
  (invariant_of_run Guarded Careful (fun _ _ _ hs hc h => guarded_step hs hc h)
    (guarded_started cfg disk isCompleted) hcareful hrun).exclusive

/-! ### Two clients at a time -/

/-- A peer with both pieces unchokes a client, which asks for each of them whether it is requested. -/
def looksForPiece (p : Fin n) : List (Action n) :=
  [.next p 0, .arrive p (.bitfield [192]), .next p 0, .next p 0, .next p 0, .arrive p .unchoke,
    .next p 0, .next p 0, .next p 0, .next p 0, .next p 0]

theorem careful_next {s : Interleaved n} {p : Fin n} {r : ℕ} (hmarks : marks r (s.points p) = none)
    (hunmarks : unmarks (coreOf s.system p) (s.points p) = none) : Careful s (.next p r) := by
  refine ⟨fun i hi => ?_, fun i hi => ?_⟩
  · rw [hmarks] at hi
    cases hi
  · rw [hunmarks] at hi
    cases hi

/-- A client marks a piece that is not marked and that nobody downloads. -/
theorem careful_mark {s : Interleaved n} {p : Fin n} {r i : ℕ} (hmarks : marks r (s.points p) = some i)
    (hunmarks : unmarks (coreOf s.system p) (s.points p) = none)
    (hfree : i ∉ s.system.master.requestedPieces)
    (hothers : ∀ q, q ≠ p → activeIndex (coreOf s.system q) ≠ some i) : Careful s (.next p r) := by
  refine ⟨fun j hj _ => ?_, fun j hj => ?_⟩
  · rw [hmarks] at hj
    obtain rfl := Option.some.inj hj
    exact ⟨hfree, fun q hq hd => absurd hd.2 (hothers q hq)⟩
  · rw [hunmarks] at hj
    cases hj

/-- One of two clients looks for a piece, chooses piece 0 and is the only one to download it. -/
theorem exclusive_run_alone :
    ∃ s, run (interleavedStep threeBytes) (atRest (started 2 threeBytes threeBytesDisk false))
        (looksForPiece 0 ++ [.next 0 0]) = some s ∧ Downloads s 0 0 ∧ Exclusive s := by
  have hrun : run (interleavedStep threeBytes) (atRest (started 2 threeBytes threeBytesDisk false))
      (looksForPiece 0 ++ [.next 0 0]) = some _ := rfl
  refine ⟨_, rfl, ⟨by decide, by decide⟩, exclusive_run ?_ hrun⟩
  refine along_cons rfl (careful_next rfl rfl) <| along_cons rfl trivial <|
    along_cons rfl (careful_next rfl rfl) <| along_cons rfl (careful_next rfl rfl) <|
    along_cons rfl (careful_next rfl rfl) <| along_cons rfl trivial <|
    along_cons rfl (careful_next rfl rfl) <| along_cons rfl (careful_next rfl rfl) <|
    along_cons rfl (careful_next rfl rfl) <| along_cons rfl (careful_next rfl rfl) <|
    along_cons rfl (careful_next rfl rfl) <| along_cons rfl ?_ trivial
  exact careful_mark (i := 0) rfl rfl (by decide) (by decide)

/-- Both look for a piece before one of them marks it: both choose piece 0. -/
theorem not_exclusive_race :
    ∃ s, run (interleavedStep threeBytes) (atRest (started 2 threeBytes threeBytesDisk false))
        (looksForPiece 0 ++ looksForPiece 1 ++ [.next 0 0, .next 1 0]) = some s ∧ ¬Exclusive s := by
  refine ⟨_, rfl, fun h => h 0 1 0 (by decide) ⟨by decide, by decide⟩ ⟨by decide, by decide⟩⟩

end CppTorrent.Swarm.OnePeer
