import Mathlib.Tactic

/-! # Strands

The handlers that are posted to a strand are run one at a time in the order of their posting. A handler
changes the state of the object that it belongs to and posts further handlers; what it finds around it
is an argument of `turn`.

`Inevitable P` says that the strand, left to itself, comes to a state with `P` whatever its handlers
find: the handlers that are queued, and those that they post, see to it. `Inevitable.of_invariant` is
the rule for it: the turns lower a measure and keep an invariant until `P` is the case, and with an
empty queue the invariant gives `P`. If the queue is empty, nothing is inevitable but what is the case
already (`Inevitable.of_nil`). -/

namespace CppTorrent.Lib.Strands

/-- The state of an object and the handlers that are posted to its strand. -/
structure Strand (σ H : Type) where
  state : σ
  queue : List H
  deriving DecidableEq

section Strand

variable {σ H ι : Type}

/-- Posts a handler. -/
def Strand.post (h : H) (s : Strand σ H) : Strand σ H := { s with queue := s.queue ++ [h] }

variable (exec : ι → H → σ → σ × List H)

/-- The first handler of the queue is run. -/
def turn (around : ι) (s : Strand σ H) : Option (Strand σ H) :=
  match s.queue with
  | [] => none
  | h :: rest => some ⟨(exec around h s.state).1, rest ++ (exec around h s.state).2⟩

/-- The strand, left to itself, comes to a state with `P`. -/
inductive Inevitable (P : σ → Prop) : Strand σ H → Prop
  | now {s : Strand σ H} : P s.state → Inevitable P s
  | later {s : Strand σ H} : s.queue ≠ [] →
      (∀ around s', turn exec around s = some s' → Inevitable P s') → Inevitable P s

variable {exec} {P : σ → Prop}

theorem turn_cons (around : ι) (c : σ) (h : H) (rest : List H) :
    turn exec around ⟨c, h :: rest⟩ =
      some ⟨(exec around h c).1, rest ++ (exec around h c).2⟩ := rfl

/-- The handlers behind the first one stay in the queue. -/
theorem exists_of_turn {around : ι} {s s' : Strand σ H} (h : turn exec around s = some s') :
    ∃ first rest, s.queue = first :: rest ∧ s'.state = (exec around first s.state).1 ∧
      s'.queue = rest ++ (exec around first s.state).2 := by
  obtain ⟨c, _ | ⟨first, rest⟩⟩ := s
  · exact absurd h (Option.some_ne_none _).symm
  · rw [turn_cons, Option.some.injEq] at h
    subst h
    exact ⟨first, rest, rfl, rfl, rfl⟩

/-- With an empty queue only what is the case already is inevitable. -/
theorem Inevitable.of_nil {s : Strand σ H} (h : Inevitable exec P s) (hq : s.queue = []) :
    P s.state := by
  rcases h with h | ⟨hne, -⟩
  · exact h
  · exact absurd hq hne

/-- If something is inevitable but not the case, it is inevitable after the next turn. -/
theorem Inevitable.of_turn {s s' : Strand σ H} {around : ι} (h : Inevitable exec P s)
    (hP : ¬ P s.state) (ht : turn exec around s = some s') : Inevitable exec P s' := by
  rcases h with h | ⟨-, h⟩
  · exact absurd h hP
  · exact h around s' ht

/-- **The rule for what is inevitable.** -/
theorem Inevitable.of_invariant (Inv : Strand σ H → Prop) (measure : Strand σ H → ℕ)
    (hmeasure : ∀ around s s', turn exec around s = some s' → measure s' < measure s)
    (hturn : ∀ around s s', Inv s → ¬ P s.state → turn exec around s = some s' → Inv s')
    (hend : ∀ s, Inv s → s.queue = [] → P s.state) {s : Strand σ H} (hs : Inv s) :
    Inevitable exec P s := by
  induction hn : measure s using Nat.strong_induction_on generalizing s with
  | _ n ih =>
    subst hn
    by_cases hP : P s.state
    · exact Inevitable.now hP
    · refine Inevitable.later (fun hq => hP (hend s hs hq)) fun around s' ht => ?_
      exact ih (measure s') (hmeasure around s s' ht) (hturn around s s' hs hP ht) rfl

end Strand

end CppTorrent.Lib.Strands
