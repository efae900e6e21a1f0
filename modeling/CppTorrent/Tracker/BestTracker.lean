import CppTorrent.Lib.Fallible
import CppTorrent.Lib.MoveToFront
import CppTorrent.Tracker.Promise

/-! # The best tracker

`TryConnect` with `Launch::Best` waits for the results of all trackers and keeps the response with the
most peers. Whenever it finds a better one it moves the tracker that gave it to the front of the list,
and it finds that tracker by the position of the result. Only trackers in front of that position have
been moved before (`Chosen.rest`), so it is the right one (`best_first`).

A tracker is a shared pointer, so its type is a parameter. -/

namespace CppTorrent.Tracker.BestTracker

open CppTorrent.Lib.Fallible CppTorrent.Lib.MoveToFront CppTorrent.Tracker.Promise

variable {α : Type}

/-- What can go wrong: a position behind the end of a list, or `std::logic_error`. -/
inductive Fault where
  | undefined
  | logicError
  deriving DecidableEq

/-- The part of `bittorrent::Torrent` that is changed. -/
structure Torrent (α : Type) where
  activeTrackers : List α
  dataFromTracker : Option Response

/-- `std::list::splice` of one element to the front. -/
def splice (i : ℕ) (trackers : List α) : Except Fault (List α) :=
  match moveToFront i trackers with
  | some trackers => .ok trackers
  | none => .error .undefined

/-- The loop over the results: the response, the trackers and the number of exceptions. -/
def bestLoop : List Settled → Response → List α → ℕ → ℕ → Except Fault (Response × List α × ℕ)
  | [], resp, trackers, _, j => .ok (resp, trackers, j)
  | .exception _ :: results, resp, trackers, i, j => bestLoop results resp trackers (i + 1) (j + 1)
  | .value curResp :: results, resp, trackers, i, j =>
    if resp.peers.length < curResp.peers.length then do
      let trackers ← splice i trackers
      bestLoop results curResp trackers (i + 1) j
    else bestLoop results resp trackers (i + 1) j

/-- The branch `Launch::Best` of `Torrent::TryConnect`, for the results of the trackers. -/
def tryConnectBest (results : List Settled) (t : Torrent α) : Except Fault (Torrent α) := do
  let (resp, trackers, j) ← bestLoop results response t.activeTrackers 0 0
  if j = results.length then .error .logicError
  else return ⟨trackers, some resp⟩

/-- The result at a position is the first one with the most peers. -/
structure FirstBest (results : List Settled) (k : ℕ) (resp : Response) : Prop where
  given : results[k]? = some (.value resp)
  most : ∀ (i : ℕ) (r : Response), results[i]? = some (.value r) → r.peers.length ≤ resp.peers.length
  first : ∀ (i : ℕ) (r : Response), results[i]? = some (.value r) → i < k → r.peers.length < resp.peers.length

/-- Whether a result is an exception. -/
def isException : Settled → Bool
  | .exception _ => true
  | .value _ => false

/-! ### The loop -/

/-- What holds after some of the results: the trackers behind them have not moved, and the first one
has given the best response so far, if there is one. -/
structure Chosen (original : List α) (done : List Settled) (resp : Response) (trackers : List α) :
    Prop where
  perm : trackers.Perm original
  rest : trackers.drop done.length = original.drop done.length
  best : (resp.peers = [] ∧ ∀ (i : ℕ) (r : Response), done[i]? = some (.value r) → r.peers = []) ∨
    ∃ k, FirstBest done k resp ∧ trackers.head? = original[k]?

variable {original trackers : List α} {done : List Settled} {resp : Response}

theorem Chosen.length (h : Chosen original done resp trackers) : trackers.length = original.length :=
  h.perm.length_eq

/-- No response so far has more peers. -/
theorem Chosen.most (h : Chosen original done resp trackers) {i : ℕ} {r : Response}
    (hr : done[i]? = some (.value r)) : r.peers.length ≤ resp.peers.length := by
  rcases h.best with ⟨-, hnone⟩ | ⟨k, hbest, -⟩
  · rw [hnone i r hr]
    exact Nat.zero_le _
  · exact hbest.most i r hr

theorem drop_succ_of_drop {l l' : List α} {n : ℕ} (h : l.drop n = l'.drop n) :
    l.drop (n + 1) = l'.drop (n + 1) := by
  have htail := congrArg (List.drop 1) h
  rwa [List.drop_drop, List.drop_drop] at htail

theorem getElem?_concat {x y : Settled} {i : ℕ} (h : (done ++ [x])[i]? = some y) :
    done[i]? = some y ∨ (i = done.length ∧ y = x) := by
  rcases Nat.lt_or_ge i done.length with hlt | hge
  · rw [List.getElem?_append_left hlt] at h
    exact Or.inl h
  · rw [List.getElem?_append_right hge, List.getElem?_singleton] at h
    split_ifs at h with hi
    exact Or.inr ⟨by omega, (Option.some.inj h).symm⟩

theorem FirstBest.concat {k : ℕ} (h : FirstBest done k resp) {x : Settled}
    (hx : ∀ r, x = .value r → r.peers.length ≤ resp.peers.length) :
    FirstBest (done ++ [x]) k resp := by
  have hk : k < done.length := (List.getElem?_eq_some_iff.mp h.given).1
  refine ⟨?_, fun i r hr => ?_, fun i r hr hlt => ?_⟩
  · rw [List.getElem?_append_left hk]
    exact h.given
  · rcases getElem?_concat hr with hr | ⟨-, hr⟩
    · exact h.most i r hr
    · exact hx r hr.symm
  · rcases getElem?_concat hr with hr | ⟨rfl, -⟩
    · exact h.first i r hr hlt
    · omega

/-- **A result that is not better** changes nothing. -/
theorem Chosen.keep (h : Chosen original done resp trackers) {x : Settled}
    (hx : ∀ r, x = .value r → r.peers.length ≤ resp.peers.length) :
    Chosen original (done ++ [x]) resp trackers := by
  refine ⟨h.perm, ?_, ?_⟩
  · rw [List.length_append, List.length_singleton]
    exact drop_succ_of_drop h.rest
  · rcases h.best with ⟨hresp, hnone⟩ | ⟨k, hbest, hhead⟩
    · refine Or.inl ⟨hresp, fun i r hr => ?_⟩
      rcases getElem?_concat hr with hr | ⟨-, hr⟩
      · exact hnone i r hr
      · have hle := hx r hr.symm
        rw [hresp] at hle
        exact List.length_eq_zero_iff.mp (Nat.le_zero.mp hle)
    · exact Or.inr ⟨k, hbest.concat hx, hhead⟩

/-- **A better one** brings its tracker to the front. -/
theorem Chosen.take (h : Chosen original done resp trackers) {curResp : Response} {trackers' : List α}
    (hbetter : resp.peers.length < curResp.peers.length)
    (hmove : moveToFront done.length trackers = some trackers') :
    Chosen original (done ++ [.value curResp]) curResp trackers' := by
  refine ⟨(perm_moveToFront hmove).trans h.perm, ?_, Or.inr ⟨done.length, ⟨?_, fun i r hr => ?_,
    fun i r hr hlt => ?_⟩, ?_⟩⟩
  · rw [List.length_append, List.length_singleton, drop_moveToFront hmove]
    exact drop_succ_of_drop h.rest
  · rw [List.getElem?_append_right le_rfl, Nat.sub_self]
    rfl
  · rcases getElem?_concat hr with hr | ⟨-, hr⟩
    · exact (h.most hr).trans hbetter.le
    · cases hr
      exact le_rfl
  · rcases getElem?_concat hr with hr | ⟨rfl, -⟩
    · exact lt_of_le_of_lt (h.most hr) hbetter
    · omega
  · -- the tracker at that position has not moved
    rw [head?_moveToFront hmove, ← List.head?_drop, h.rest, List.head?_drop]

/-- **One result**: the choice is kept, and an exception is counted. -/
theorem bestLoop_step (h : Chosen original done resp trackers) (hlen : done.length < original.length)
    (x : Settled) (todo : List Settled) (j : ℕ) :
    ∃ resp' trackers', Chosen original (done ++ [x]) resp' trackers' ∧
      bestLoop (x :: todo) resp trackers done.length j =
        bestLoop todo resp' trackers' (done.length + 1) (j + if isException x then 1 else 0) := by
  cases x with
  | exception err =>
    refine ⟨resp, trackers, h.keep fun r hr => ?_, rfl⟩
    cases hr
  | value curResp =>
    rw [bestLoop]
    by_cases hbetter : resp.peers.length < curResp.peers.length
    · have hmove := moveToFront_of_lt (hlen.trans_eq h.length.symm)
      refine ⟨curResp, _, h.take hbetter hmove, ?_⟩
      unfold splice
      rw [if_pos hbetter, hmove]
      rfl
    · refine ⟨resp, trackers, h.keep fun r hr => ?_, if_neg hbetter⟩
      obtain rfl := Settled.value.inj hr
      exact not_lt.mp hbetter

/-- **The loop keeps the choice**; the induction is on the results that are left. -/
theorem bestLoop_spec : ∀ (todo : List Settled) {done : List Settled} {resp : Response}
    {trackers : List α} (j : ℕ), Chosen original done resp trackers →
    done.length + todo.length ≤ original.length →
    ∃ resp' trackers', bestLoop todo resp trackers done.length j =
        .ok (resp', trackers', j + todo.countP isException) ∧
      Chosen original (done ++ todo) resp' trackers'
  | [], done, resp, trackers, j, h, _ => ⟨resp, trackers, rfl, by rwa [List.append_nil]⟩
  | x :: todo, done, resp, trackers, j, h, hlen => by
    rw [List.length_cons] at hlen
    obtain ⟨resp₁, trackers₁, h₁, hstep⟩ := bestLoop_step h (by omega) x todo j
    obtain ⟨resp', trackers', hloop, hchosen⟩ :=
      bestLoop_spec todo (j + if isException x then 1 else 0) h₁
        (by rw [List.length_append, List.length_singleton]; omega)
    rw [List.length_append, List.length_singleton, ← hstep] at hloop
    rw [List.append_assoc, List.singleton_append] at hchosen
    rw [List.countP_cons, Nat.add_comm (todo.countP isException), ← Nat.add_assoc]
    exact ⟨resp', trackers', hloop, hchosen⟩

/-- **The best tracker comes first**: the response kept is the first one with the most peers, and the
tracker that gave it is the first of the list, which has the same trackers as before. -/
theorem best_first (t : Torrent α) (results : List Settled)
    (hlen : results.length = t.activeTrackers.length)
    (hpeers : ∀ r, .value r ∈ results → r.peers ≠ []) (hsome : ∃ r, .value r ∈ results) :
    ∃ t' k resp, tryConnectBest results t = .ok t' ∧ FirstBest results k resp ∧
      t'.dataFromTracker = some resp ∧ t'.activeTrackers.Perm t.activeTrackers ∧
      ∃ tracker, t.activeTrackers[k]? = some tracker ∧ t'.activeTrackers.head? = some tracker := by
  obtain ⟨r, hr⟩ := hsome
  have hstart : Chosen t.activeTrackers [] response t.activeTrackers :=
    ⟨List.Perm.refl _, rfl, Or.inl ⟨rfl, fun i r h => by simp at h⟩⟩
  obtain ⟨resp, trackers, hloop, hchosen⟩ := bestLoop_spec results 0 hstart
    (by rw [List.length_nil, hlen, Nat.zero_add])
  rw [List.nil_append] at hchosen
  rw [List.length_nil, Nat.zero_add] at hloop
  have hfew : results.countP isException ≠ results.length := by
    intro hall
    exact absurd (List.countP_eq_length.mp hall _ hr) (by simp [isException])
  obtain ⟨i, hi⟩ := List.mem_iff_getElem?.mp hr
  rcases hchosen.best with ⟨-, hnone⟩ | ⟨k, hbest, hhead⟩
  · exact absurd (hnone i r hi) (hpeers r hr)
  · have hk : k < t.activeTrackers.length := hlen ▸ (List.getElem?_eq_some_iff.mp hbest.given).1
    refine ⟨⟨trackers, some resp⟩, k, resp, ?_, hbest, rfl, hchosen.perm, t.activeTrackers[k],
      List.getElem?_eq_getElem hk, ?_⟩
    · refine bind_eq_ok.mpr ⟨_, hloop, ?_⟩
      dsimp only
      rw [if_neg hfew]
      rfl
    · rw [hhead, List.getElem?_eq_getElem hk]

/-- Two trackers, the second of which has the peers. -/
theorem best_first_two :
    ∃ t' k resp, tryConnectBest [.exception "", .value { response with peers := [⟨⟨1, 2, none⟩, []⟩] }]
        (⟨[10, 20], none⟩ : Torrent ℕ) = .ok t' ∧
      FirstBest [.exception "", .value { response with peers := [⟨⟨1, 2, none⟩, []⟩] }] k resp ∧
      t'.dataFromTracker = some resp ∧ t'.activeTrackers.Perm [10, 20] ∧
      ∃ tracker, [10, 20][k]? = some tracker ∧ t'.activeTrackers.head? = some tracker :=
  best_first ⟨[10, 20], none⟩ _ rfl (by simp) ⟨_, List.mem_cons_of_mem _ List.mem_cons_self⟩

end CppTorrent.Tracker.BestTracker
