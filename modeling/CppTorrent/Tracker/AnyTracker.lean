import CppTorrent.Lib.Runs
import CppTorrent.Tracker.Promise

/-! # Any tracker

`TryConnect` with `Launch::Any` takes the first result that there is. `DoneCheck` is called when one of
the futures is ready, and takes the first one of them in the order of the vector. If it has a response,
this is the result; if it has an exception, it is erased and `DoneCheck` waits for the others. When the
last future has been erased, the exception is read through its iterator, which is not valid any more.

The trackers answer between two calls of `DoneCheck`, so several futures may be ready when it is called,
and a future in front of others may become ready later than they do. `any_run` says what every run comes to:
the result is the response of the first tracker of the list that has responded by then, the invalid
iterator is read only if all trackers have failed, and up to then the run goes on, for `2 * n` steps at
most. -/

namespace CppTorrent.Tracker.AnyTracker

open CppTorrent.Lib.Runs CppTorrent.Tracker.Promise

/-- The future of a tracker; it is ready if it has a result. -/
structure Future where
  tracker : ℕ
  result : Option Settled
  deriving DecidableEq

/-- `is_ready`. -/
def Future.isReady (f : Future) : Bool := f.result.isSome

/-- What has become of `total_res`: `DoneCheck` waits for some futures, a response has been set, or an
invalid iterator has been read. -/
inductive State where
  | waiting (results : List Future)
  | set (resp : Response)
  | broken

/-- What can happen next: a tracker settles its promise, or `DoneCheck` is called. -/
inductive Event where
  | answer (tracker : ℕ) (settled : Settled)
  | check

/-- `DoneCheck::operator()`; it is only called if a future is ready. `std::find_if` looks at the futures
one after the other; here they are all looked at in one instant. -/
def doneCheck (results : List Future) : Option State :=
  match (results.find? Future.isReady).bind Future.result with
  | none => none
  | some (.value resp) => some (.set resp)
  | some (.exception _) =>
    let results := results.eraseP Future.isReady
    some (if results ≠ [] then .waiting results else .broken)

/-- A tracker settles its promise. -/
def settleOne (tracker : ℕ) (settled : Settled) (results : List Future) : List Future :=
  results.map fun f => if f.tracker = tracker then { f with result := some settled } else f

/-- One step. -/
def step : State → Event → Option State
  | .waiting results, .answer tracker settled =>
    if ⟨tracker, none⟩ ∈ results then some (.waiting (settleOne tracker settled results)) else none
  | .waiting results, .check => doneCheck results
  | _, _ => none

/-- The branch `Launch::Any` of `Torrent::TryConnect`, when `n` trackers have been asked. -/
def init (n : ℕ) : State := .waiting ((List.range n).map fun t => ⟨t, none⟩)

/-! ### What the futures tell -/

/-- How many events can still come for some futures: two for one that is not ready. -/
def weight (results : List Future) : ℕ :=
  results.length + results.countP fun f => !f.isReady

/-- What holds while `DoneCheck` waits, after the events `es`. -/
structure Waiting (n : ℕ) (es : List Event) (results : List Future) : Prop where
  nonempty : results ≠ []
  ordered : results.Pairwise fun f g => f.tracker < g.tracker
  inRange : ∀ f ∈ results, f.tracker < n
  asked : ∀ t o, Event.answer t o ∈ es → t < n
  truthful : ∀ f ∈ results, ∀ o, f.result = some o ↔ Event.answer f.tracker o ∈ es
  erased : ∀ t < n, (∀ f ∈ results, f.tracker ≠ t) →
    ∃ err, ∀ o, Event.answer t o ∈ es ↔ o = .exception err
  bound : es.length + weight results ≤ 2 * n

/-- A tracker has failed. -/
def Failed (es : List Event) (t : ℕ) : Prop :=
  (∃ err, Event.answer t (.exception err) ∈ es) ∧ ∀ resp, Event.answer t (.value resp) ∉ es

/-- The response is that of the first tracker that has responded. -/
def First (es : List Event) (resp : Response) : Prop :=
  ∃ t, Event.answer t (.value resp) ∈ es ∧ ∀ t' < t, ∀ resp', Event.answer t' (.value resp') ∉ es

/-- What holds after the events `es`. -/
def Good (n : ℕ) (es : List Event) : State → Prop
  | .waiting results => Waiting n es results
  | .set resp => First es resp ∧ es.length ≤ 2 * n
  | .broken => (∀ t < n, Failed es t) ∧ es.length ≤ 2 * n

variable {n : ℕ} {es : List Event} {results : List Future}

theorem mem_concat_check {t : ℕ} {o : Settled} :
    Event.answer t o ∈ es ++ [.check] ↔ Event.answer t o ∈ es := by
  simp

theorem mem_concat_answer {t t' : ℕ} {o o' : Settled} :
    Event.answer t o ∈ es ++ [.answer t' o'] ↔ Event.answer t o ∈ es ∨ (t = t' ∧ o = o') := by
  simp

/-! ### A tracker answers -/

theorem mem_settleOne {t : ℕ} {o : Settled} {g : Future} (hg : g ∈ settleOne t o results) :
    ∃ f ∈ results, g.tracker = f.tracker ∧
      (f.tracker = t ∧ g.result = some o ∨ f.tracker ≠ t ∧ g.result = f.result) := by
  obtain ⟨f, hf, rfl⟩ := List.mem_map.mp hg
  refine ⟨f, hf, ?_⟩
  by_cases ht : f.tracker = t
  · rw [if_pos ht]
    exact ⟨rfl, Or.inl ⟨ht, rfl⟩⟩
  · rw [if_neg ht]
    exact ⟨rfl, Or.inr ⟨ht, rfl⟩⟩

/-- Settling a promise that has not been settled lowers the weight. -/
theorem weight_settleOne {t : ℕ} (o : Settled) (ht : ⟨t, none⟩ ∈ results) :
    weight (settleOne t o results) + 1 ≤ weight results := by
  have hle : ∀ l : List Future,
      (settleOne t o l).countP (fun f => !f.isReady) ≤ l.countP fun f => !f.isReady := by
    intro l
    unfold settleOne
    rw [List.countP_map]
    refine List.countP_mono_left fun f _ hf => ?_
    by_cases hft : f.tracker = t
    · simp [hft, Future.isReady] at hf
    · simpa [hft] using hf
  obtain ⟨front, back, rfl⟩ := List.append_of_mem ht
  have hfront := hle front
  have hback := hle back
  have hsplit : settleOne t o (front ++ ⟨t, none⟩ :: back) =
      settleOne t o front ++ ⟨t, some o⟩ :: settleOne t o back := by
    simp [settleOne]
  unfold weight
  rw [hsplit]
  simp only [List.length_append, List.length_cons, List.countP_append, List.countP_cons,
    Future.isReady, settleOne, List.length_map] at *
  simp only [Option.isSome_some, Option.isSome_none, Bool.not_true, Bool.not_false]
  simp only [Bool.false_eq_true, if_true, if_false]
  omega

theorem Waiting.answer (h : Waiting n es results) {t : ℕ} (o : Settled) (ht : ⟨t, none⟩ ∈ results) :
    Waiting n (es ++ [.answer t o]) (settleOne t o results) := by
  have hnever : ∀ o', Event.answer t o' ∉ es := fun o' hmem => by
    have hnone := (h.truthful _ ht o').mpr hmem
    cases hnone
  refine ⟨?_, ?_, fun g hg => ?_, fun t' o' hmem => ?_, fun g hg o' => ?_, fun t' ht' hno => ?_, ?_⟩
  · unfold settleOne
    simpa using h.nonempty
  · refine List.pairwise_map.mpr (h.ordered.imp fun {f g} hfg => ?_)
    split_ifs <;> exact hfg
  · obtain ⟨f, hf, htracker, -⟩ := mem_settleOne hg
    exact htracker ▸ h.inRange f hf
  · rcases mem_concat_answer.mp hmem with hmem | ⟨rfl, -⟩
    · exact h.asked t' o' hmem
    · exact h.inRange _ ht
  · obtain ⟨f, hf, htracker, hcase⟩ := mem_settleOne hg
    rw [htracker, mem_concat_answer]
    rcases hcase with ⟨hft, hresult⟩ | ⟨hft, hresult⟩
    · rw [hresult, hft, Option.some.injEq]
      constructor
      · rintro rfl
        exact Or.inr ⟨rfl, rfl⟩
      · rintro (hmem | ⟨-, rfl⟩)
        · exact absurd hmem (hnever o')
        · rfl
    · rw [hresult, h.truthful f hf o']
      exact ⟨Or.inl, fun hor => hor.resolve_right fun hsame => hft hsame.1⟩
  · have hold : ∀ f ∈ results, f.tracker ≠ t' := fun f hf heq => by
      refine hno _ (List.mem_map_of_mem hf) ?_
      split_ifs <;> exact heq
    obtain ⟨err, herr⟩ := h.erased t' ht' hold
    refine ⟨err, fun o' => ?_⟩
    rw [mem_concat_answer, herr o']
    exact ⟨fun hor => hor.resolve_right fun hsame => hold _ ht hsame.1.symm, Or.inl⟩
  · have hweight := weight_settleOne o ht
    have hbound := h.bound
    rw [List.length_append, List.length_singleton]
    omega

/-! ### The check -/

/-- The future that the check takes: none in front of it is ready. -/
theorem doneCheck_eq_some {s : State} (h : doneCheck results = some s) :
    ∃ front f back o, results = front ++ f :: back ∧ (∀ g ∈ front, g.result = none) ∧
      f.result = some o ∧
      ((∃ resp, o = .value resp ∧ s = .set resp) ∨
        ∃ err, o = .exception err ∧
          s = if front ++ back ≠ [] then .waiting (front ++ back) else .broken) := by
  unfold doneCheck at h
  rcases hfind : results.find? Future.isReady with _ | f
  · rw [hfind] at h
    cases h
  · obtain ⟨hready, front, back, rfl, hfront⟩ := List.find?_eq_some_iff_append.mp hfind
    have hnone : ∀ g ∈ front, g.result = none := fun g hg => by
      simpa [Future.isReady] using hfront g hg
    have herase : (front ++ f :: back).eraseP Future.isReady = front ++ back := by
      rw [List.eraseP_append_right _ fun g hg => by simpa using hfront g hg,
        List.eraseP_cons_of_pos hready]
    rw [hfind, Option.bind_some, herase] at h
    obtain ⟨o, ho⟩ := Option.isSome_iff_exists.mp hready
    rw [ho] at h
    refine ⟨front, f, back, o, rfl, hnone, ho, ?_⟩
    rcases o with resp | err
    · exact Or.inl ⟨resp, rfl, (Option.some.inj h).symm⟩
    · exact Or.inr ⟨err, rfl, (Option.some.inj h).symm⟩

theorem Waiting.check (h : Waiting n es results) {s : State} (hs : doneCheck results = some s) :
    Good n (es ++ [.check]) s := by
  obtain ⟨front, f, back, o, rfl, hfront, hresult, hcase⟩ := doneCheck_eq_some hs
  have hf : f ∈ front ++ f :: back := List.mem_append_right front List.mem_cons_self
  have hbound := h.bound
  have hweight : weight (front ++ back) + 1 ≤ weight (front ++ f :: back) := by
    unfold weight
    simp only [List.length_append, List.length_cons, List.countP_append, List.countP_cons]
    omega
  have hlen : (es ++ [Event.check]).length = es.length + 1 := by simp
  obtain ⟨hordFront, hordBack, hacross⟩ := List.pairwise_append.mp h.ordered
  rcases hcase with ⟨resp, rfl, rfl⟩ | ⟨err, rfl, rfl⟩
  · refine ⟨⟨f.tracker, mem_concat_check.mpr ((h.truthful f hf _).mp hresult), ?_⟩, by omega⟩
    -- a response of an earlier tracker would be ready in front of it
    intro t' hlt resp' hmem
    have hmem := mem_concat_check.mp hmem
    by_cases hin : ∃ g ∈ front ++ f :: back, g.tracker = t'
    · obtain ⟨g, hg, rfl⟩ := hin
      have hready := (h.truthful g hg _).mpr hmem
      rcases List.mem_append.mp hg with hg | hg
      · rw [hfront g hg] at hready
        cases hready
      · rcases List.mem_cons.mp hg with rfl | hg
        · exact absurd hlt (lt_irrefl _)
        · have hgt := List.rel_of_pairwise_cons hordBack hg
          omega
    · obtain ⟨err, herr⟩ := h.erased t' (h.asked t' _ hmem) fun g hg heq => hin ⟨g, hg, heq⟩
      cases (herr _).mp hmem
  · have hother : ∀ t < n, (∀ g ∈ front ++ back, g.tracker ≠ t) →
        ∃ err, ∀ o, Event.answer t o ∈ es ++ [.check] ↔ o = .exception err := by
      intro t ht hno
      simp only [mem_concat_check]
      by_cases heq : f.tracker = t
      · refine ⟨err, fun o => ?_⟩
        rw [← heq, ← h.truthful f hf o, hresult, Option.some.injEq]
        exact eq_comm
      · refine h.erased t ht fun g hg => ?_
        rcases List.mem_append.mp hg with hg | hg
        · exact hno g (List.mem_append_left back hg)
        · rcases List.mem_cons.mp hg with rfl | hg
          · exact heq
          · exact hno g (List.mem_append_right front hg)
    have hsub : (front ++ back).Sublist (front ++ f :: back) :=
      List.Sublist.append_left (List.sublist_cons_self f back) front
    split_ifs with hne
    · refine ⟨hne, h.ordered.sublist hsub, fun g hg => h.inRange g (hsub.subset hg),
        fun t o hmem => h.asked t o (mem_concat_check.mp hmem), fun g hg o => ?_, hother, by omega⟩
      rw [mem_concat_check]
      exact h.truthful g (hsub.subset hg) o
    · refine ⟨fun t ht => ?_, by omega⟩
      have hnil : front ++ back = [] := not_not.mp hne
      obtain ⟨err, herr⟩ := hother t ht (by simp [hnil])
      exact ⟨⟨err, (herr _).mpr rfl⟩, fun resp hmem => by cases (herr _).mp hmem⟩

/-! ### Every run -/

theorem waiting_init (hn : 0 < n) : Waiting n [] ((List.range n).map fun t => ⟨t, none⟩) where
  nonempty := by simp; omega
  ordered := List.pairwise_map.mpr List.pairwise_lt_range
  inRange := fun f hf => by
    obtain ⟨t, ht, rfl⟩ := List.mem_map.mp hf
    exact List.mem_range.mp ht
  asked := fun t o hmem => absurd hmem List.not_mem_nil
  truthful := fun f hf o => by
    obtain ⟨t, -, rfl⟩ := List.mem_map.mp hf
    simp
  erased := fun t ht hno =>
    absurd rfl (hno ⟨t, none⟩ (List.mem_map.mpr ⟨t, List.mem_range.mpr ht, rfl⟩))
  bound := by
    have hcount := List.countP_le_length (p := fun f : Future => !f.isReady)
      (l := (List.range n).map fun t => ⟨t, none⟩)
    unfold weight
    simp only [List.length_map, List.length_range, List.length_nil] at *
    omega

theorem good_step {s s' : State} {e : Event} (h : Good n es s) (hs : step s e = some s') :
    Good n (es ++ [e]) s' := by
  rcases s with results | resp | _
  · rcases e with ⟨t, o⟩ | _
    · rw [step] at hs
      split_ifs at hs with ht
      cases hs
      exact Waiting.answer h o ht
    · exact Waiting.check h hs
  · cases hs
  · cases hs

theorem good_run (hn : 0 < n) {s : State} (h : run step (init n) es = some s) : Good n es s := by
  have hstart : Good n [] (init n) := waiting_init hn
  exact history_of_run (Good n) hstart (fun _ _ _ _ hgood hs => good_step hgood hs) h

/-- As long as `DoneCheck` waits, a tracker can still answer or `DoneCheck` is called. -/
theorem Waiting.goes_on (h : Waiting n es results) : ∃ e s', step (.waiting results) e = some s' := by
  obtain ⟨⟨t, _ | o⟩, rest, rfl⟩ := List.exists_cons_of_ne_nil h.nonempty
  · exact ⟨.answer t (.exception ""), _, if_pos List.mem_cons_self⟩
  · rcases o with resp | err
    · exact ⟨.check, _, rfl⟩
    · exact ⟨.check, _, rfl⟩

/-- **What every run comes to**, in whatever order the trackers answer and `DoneCheck` is called. The
result is the response of the first tracker of the list that has responded by then. The invalid iterator
is read only if all trackers have failed. A run has at most two steps for each tracker, and one that
cannot go on has come to a result or to the invalid iterator. -/
theorem any_run (hn : 0 < n) {s : State} (h : run step (init n) es = some s) :
    es.length ≤ 2 * n ∧ (∀ resp, s = .set resp → First es resp) ∧
      (s = .broken → ∀ t < n, Failed es t) ∧
      ((∀ e, step s e = none) → (∃ resp, s = .set resp) ∨ s = .broken) := by
  have hgood := good_run hn h
  rcases s with results | resp | _
  · have hwaiting : Waiting n es results := hgood
    refine ⟨le_trans (Nat.le_add_right _ _) hwaiting.bound, fun resp hs => (by cases hs),
      fun hs => (by cases hs), fun hstuck => ?_⟩
    obtain ⟨e, s', hstep⟩ := hwaiting.goes_on
    rw [hstuck e] at hstep
    cases hstep
  · refine ⟨hgood.2, fun resp' hs => ?_, fun hs => (by cases hs), fun _ => Or.inl ⟨resp, rfl⟩⟩
    cases hs
    exact hgood.1
  · exact ⟨hgood.2, fun resp hs => (by cases hs), fun _ => hgood.1, fun _ => Or.inr rfl⟩

/-- Of three trackers the first one fails, and the last one responds before the second one does. -/
def lateSecond : List Event :=
  [.answer 0 (.exception "timeout"), .check, .answer 2 (.value { response with complete := 2 }),
    .answer 1 (.value response), .check]

/-- The second one is taken. -/
theorem any_run_lateSecond :
    run step (init 3) lateSecond = some (.set response) ∧ lateSecond.length ≤ 2 * 3 ∧
      (∀ resp, State.set response = .set resp → First lateSecond resp) ∧
      (State.set response = .broken → ∀ t < 3, Failed lateSecond t) ∧
      ((∀ e, step (.set response) e = none) →
        (∃ resp, State.set response = .set resp) ∨ State.set response = .broken) :=
  have hrun : run step (init 3) lateSecond = some (.set response) := rfl
  ⟨hrun, any_run (by decide) hrun⟩

end CppTorrent.Tracker.AnyTracker
