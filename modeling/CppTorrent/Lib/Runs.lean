import Mathlib.Tactic

/-! # Runs of a state machine

A machine is a step function: an event that is not enabled has no next state. `run` follows a list
of events, `Along` says that a condition on the state and the event holds at every step of a run.
`invariant_of_run` is the induction used for every invariant: what holds at the start and is kept by
every step that meets the condition holds at the end of every run that meets it. Prefixes of a run
are runs, so that is every state the run goes through. Where the invariant speaks of the events so far,
the induction is `history_of_run`.

A run in which every step raises a potential is bounded by it (`length_le_of_run`). If all runs are
bounded, a strategy that can always go on until it is done comes to a state where it is (`finishes`). -/

namespace CppTorrent.Lib.Runs

variable {S E : Type} (step : S → E → Option S)

/-- Follows the events; `none` if one of them is not enabled. -/
def run : S → List E → Option S
  | s, [] => some s
  | s, e :: es => (step s e).bind fun s' => run s' es

/-- The condition holds at every step of the run. -/
def Along (cond : S → E → Prop) : S → List E → Prop
  | _, [] => True
  | s, e :: es => ∀ s', step s e = some s' → cond s e ∧ Along cond s' es

/-- The property holds in every state the run goes through. -/
def Throughout (P : S → Prop) (s : S) (es : List E) : Prop :=
  ∀ k s', run step s (es.take k) = some s' → P s'

variable {step}

theorem run_cons {s s' : S} {e : E} {es : List E} (h : run step s (e :: es) = some s') :
    ∃ s1, step s e = some s1 ∧ run step s1 es = some s' := Option.bind_eq_some_iff.mp h

theorem run_append (s : S) (es es' : List E) :
    run step s (es ++ es') = (run step s es).bind fun s' => run step s' es' := by
  induction es generalizing s with
  | nil => rfl
  | cons e es ih =>
    rw [List.cons_append, run, run, Option.bind_assoc]
    exact congrArg (Option.bind _) (funext fun s' => ih s')

theorem throughout_cons {P : S → Prop} {s : S} {e : E} {es : List E} :
    Throughout step P s (e :: es) ↔
      P s ∧ ∀ s', step s e = some s' → Throughout step P s' es := by
  constructor
  · intro h
    refine ⟨h 0 s rfl, fun s' hs k s'' hr => h (k + 1) s'' ?_⟩
    rw [List.take_succ_cons, run, hs]
    exact hr
  · rintro ⟨h0, h1⟩ k s'' hr
    cases k with
    | zero => cases hr; exact h0
    | succ k =>
      obtain ⟨s', hs, hr⟩ := run_cons hr
      exact h1 s' hs k s'' hr

theorem along_cons {cond : S → E → Prop} {s s1 : S} {e : E} {es : List E}
    (h : step s e = some s1) (hc : cond s e) (ht : Along step cond s1 es) :
    Along step cond s (e :: es) := by
  intro s' hs
  cases h.symm.trans hs
  exact ⟨hc, ht⟩

/-- A condition that can be decided can be decided along a run. -/
instance decidableAlong {cond : S → E → Prop} [∀ s e, Decidable (cond s e)] :
    ∀ (s : S) (es : List E), Decidable (Along step cond s es)
  | _, [] => .isTrue trivial
  | s, e :: es =>
    match h : step s e with
    | none => .isTrue fun s' hs => by rw [h] at hs; cases hs
    | some s1 =>
      have : Decidable (Along step cond s1 es) := decidableAlong s1 es
      decidable_of_iff (cond s e ∧ Along step cond s1 es)
        ⟨fun hc => along_cons h hc.1 hc.2, fun hc => hc s1 h⟩

theorem along_true : ∀ (s : S) (es : List E), Along step (fun _ _ => True) s es
  | _, [] => trivial
  | _, _ :: es => fun s' _ => ⟨trivial, along_true s' es⟩

theorem along_of_forall {cond : S → E → Prop} : ∀ {es : List E}, (∀ e ∈ es, ∀ s, cond s e) →
    ∀ s, Along step cond s es
  | [], _, _ => trivial
  | _ :: _, h, s => fun s' _ =>
    ⟨h _ List.mem_cons_self s, along_of_forall (fun e he => h e (List.mem_cons_of_mem _ he)) s'⟩

/-- **The invariant rule.** -/
theorem invariant_of_run (Inv : S → Prop) (cond : S → E → Prop)
    (hstep : ∀ s e s', Inv s → cond s e → step s e = some s' → Inv s') :
    ∀ {es : List E} {s s' : S}, Inv s → Along step cond s es → run step s es = some s' → Inv s'
  | [], _, _, hi, _, h => by cases h; exact hi
  | _ :: _, _, _, hi, hc, h => by
    obtain ⟨s1, h1, h2⟩ := run_cons h
    exact invariant_of_run Inv cond hstep (hstep _ _ _ hi (hc s1 h1).1 h1) (hc s1 h1).2 h2

/-- **The history rule**, for an invariant that speaks of the events so far. -/
theorem history_of_run (Inv : List E → S → Prop) {start : S} (hstart : Inv [] start)
    (hstep : ∀ es s e s', Inv es s → step s e = some s' → Inv (es ++ [e]) s') {es : List E} {s : S}
    (h : run step start es = some s) : Inv es s := by
  induction es using List.reverseRecOn generalizing s with
  | nil =>
    cases h
    exact hstart
  | append_singleton es e ih =>
    rw [run_append, Option.bind_eq_some_iff] at h
    obtain ⟨s1, h1, h2⟩ := h
    obtain ⟨_, he, hend⟩ := run_cons h2
    cases hend
    exact hstep es s1 e _ (ih h1) he

/-- **The exact invariant rule**: if a step from a good state leads to a good state exactly under
the condition, a run stays good exactly if it meets the condition. -/
theorem throughout_iff {Inv : S → Prop} {cond : S → E → Prop}
    (hstep : ∀ s e s', Inv s → step s e = some s' → (Inv s' ↔ cond s e)) :
    ∀ {es : List E} {s : S}, Inv s → (Throughout step Inv s es ↔ Along step cond s es)
  | [], s, hi => by
    refine ⟨fun _ => trivial, fun _ k s' hr => ?_⟩
    rw [List.take_nil] at hr
    cases hr
    exact hi
  | e :: es, s, hi => by
    rw [throughout_cons, Along]
    refine ⟨fun h s' hs => ?_, fun h => ⟨hi, fun s' hs => ?_⟩⟩
    · have hs' : Inv s' := h.2 s' hs 0 s' rfl
      exact ⟨(hstep _ _ _ hi hs).mp hs', (throughout_iff hstep hs').mp (h.2 s' hs)⟩
    · obtain ⟨hc, ha⟩ := h s' hs
      exact (throughout_iff hstep ((hstep _ _ _ hi hs).mpr hc)).mpr ha

/-- **What a run keeps**: if a step keeps a property exactly under the condition, and never restores
it, a run keeps it exactly if it meets the condition. -/
theorem kept_iff {P : S → Prop} {cond : S → E → Prop}
    (hstep : ∀ s e s', step s e = some s' → (P s' ↔ P s ∧ cond s e)) :
    ∀ {es : List E} {s s' : S}, run step s es = some s' → (P s' ↔ P s ∧ Along step cond s es)
  | [], _, _, h => by cases h; simp [Along]
  | e :: es, s, s', h => by
    obtain ⟨s1, h1, h2⟩ := run_cons h
    rw [kept_iff hstep h2, hstep _ _ _ h1, and_assoc]
    refine and_congr_right fun _ => ⟨fun hc s2 h2 => ?_, fun hc => hc s1 h1⟩
    cases h1.symm.trans h2
    exact hc

/-! ### Runs that end -/

/-- Every event of the run is the one that a strategy chooses after the events before it. -/
def Follows (strategy : List E → E) (es : List E) : Prop :=
  ∀ k < es.length, es[k]? = some (strategy (es.take k))

theorem follows_snoc {strategy : List E → E} {es : List E} (h : Follows strategy es) :
    Follows strategy (es ++ [strategy es]) := by
  intro k hk
  rw [List.length_append, List.length_singleton] at hk
  rcases Nat.lt_or_ge k es.length with hlt | hge
  · rw [List.getElem?_append_left hlt, List.take_append_of_le_length hlt.le]
    exact h k hlt
  · obtain rfl : k = es.length := by omega
    rw [List.getElem?_append_right le_rfl, Nat.sub_self, List.take_left']
    · rfl
    · rfl

/-- **The bound rule**: a potential that every step raises by one bounds the length of a run. -/
theorem length_le_of_run (Inv : S → Prop) (potential : S → ℤ)
    (hstep : ∀ s e s', Inv s → step s e = some s' → Inv s' ∧ potential s + 1 ≤ potential s') :
    ∀ {es : List E} {s s' : S}, Inv s → run step s es = some s' →
      potential s + es.length ≤ potential s'
  | [], s, s', hi, h => by
    cases h
    show potential s + 0 ≤ potential s
    omega
  | e :: es, s, s', hi, h => by
    obtain ⟨s1, h1, h2⟩ := run_cons h
    obtain ⟨hi1, hraised⟩ := hstep s e s1 hi h1
    have hrest := length_le_of_run Inv potential hstep hi1 h2
    rw [List.length_cons]
    omega

/-- **The termination rule**: if the runs from a state are bounded, and a strategy has a next step
wherever it is not done, following the strategy leads to a state where it is. -/
theorem finishes {start : S} (done : S → Prop) {bound : ℕ} (strategy : List E → E)
    (hbound : ∀ es s, run step start es = some s → es.length ≤ bound)
    (hnext : ∀ es s, Follows strategy es → run step start es = some s → ¬ done s →
      ∃ s', step s (strategy es) = some s') :
    ∃ es s, Follows strategy es ∧ run step start es = some s ∧ done s := by
  by_contra hnever
  -- otherwise the strategy has runs of every length
  have hruns : ∀ n, ∃ es s, es.length = n ∧ Follows strategy es ∧ run step start es = some s := by
    intro n
    induction n with
    | zero => exact ⟨[], start, rfl, fun k hk => absurd hk (Nat.not_lt_zero k), rfl⟩
    | succ n ih =>
      obtain ⟨es, s, hlen, hfollows, hrun⟩ := ih
      obtain ⟨s', hs'⟩ := hnext es s hfollows hrun fun hdone => hnever ⟨es, s, hfollows, hrun, hdone⟩
      refine ⟨es ++ [strategy es], s', ?_, follows_snoc hfollows, ?_⟩
      · rw [List.length_append, List.length_singleton, hlen]
      · rw [run_append, hrun, Option.bind_some, run, hs']
        rfl
  obtain ⟨es, s, hlen, -, hrun⟩ := hruns (bound + 1)
  have hle : es.length ≤ bound := hbound es s hrun
  omega

end CppTorrent.Lib.Runs
