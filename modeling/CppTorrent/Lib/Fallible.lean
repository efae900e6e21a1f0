import Mathlib.Tactic

/-! # Computations that may fail

`Succeeds` says that a computation gives a result. It goes through the operations that computations
are built from: a sequence succeeds if its first step does and the rest does on what the step gives, a
loop over a list if it does on every element. -/

namespace CppTorrent.Lib.Fallible

variable {ε α β : Type}

/-- The computation gives a result. -/
def Succeeds (x : Except ε α) : Prop := ∃ a, x = .ok a

@[simp] theorem succeeds_ok (a : α) : Succeeds (.ok a : Except ε α) := ⟨a, rfl⟩

@[simp] theorem succeeds_pure (a : α) : Succeeds (pure a : Except ε α) := ⟨a, rfl⟩

@[simp] theorem not_succeeds_error (e : ε) : ¬ Succeeds (.error e : Except ε α) := by
  rintro ⟨a, h⟩
  cases h

/-- A sequence of two computations that has given a result. -/
theorem bind_eq_ok {x : Except ε α} {f : α → Except ε β} {b : β} :
    (x >>= f) = .ok b ↔ ∃ a, x = .ok a ∧ f a = .ok b := by
  rcases x with e | a
  · constructor
    · intro h
      cases h
    · rintro ⟨a, h, -⟩
      cases h
  · constructor
    · intro h
      exact ⟨a, rfl, h⟩
    · rintro ⟨a', h, hf⟩
      cases h
      exact hf

theorem succeeds_bind {x : Except ε α} {f : α → Except ε β} :
    Succeeds (x >>= f) ↔ ∃ a, x = .ok a ∧ Succeeds (f a) := by
  constructor
  · rintro ⟨b, h⟩
    obtain ⟨a, hx, hf⟩ := bind_eq_ok.mp h
    exact ⟨a, hx, b, hf⟩
  · rintro ⟨a, hx, b, hf⟩
    exact ⟨b, bind_eq_ok.mpr ⟨a, hx, hf⟩⟩

/-- If what is done with the first result cannot fail or does not depend on it, the two are
independent. -/
theorem succeeds_bind_of_forall {x : Except ε α} {f : α → Except ε β} {p : Prop}
    (hf : ∀ a, Succeeds (f a) ↔ p) : Succeeds (x >>= f) ↔ Succeeds x ∧ p := by
  rw [succeeds_bind]
  constructor
  · rintro ⟨a, hx, h⟩
    exact ⟨⟨a, hx⟩, (hf a).mp h⟩
  · rintro ⟨⟨a, hx⟩, h⟩
    exact ⟨a, hx, (hf a).mpr h⟩

@[simp] theorem succeeds_map {x : Except ε α} {f : α → β} : Succeeds (x.map f) ↔ Succeeds x := by
  rcases x with e | a
  · exact iff_of_false (not_succeeds_error e) (not_succeeds_error e)
  · exact iff_of_true ⟨f a, rfl⟩ ⟨a, rfl⟩

/-- A loop over a list succeeds if it does on every element. -/
theorem succeeds_mapM {f : α → Except ε β} : ∀ {xs : List α},
    Succeeds (xs.mapM f) ↔ ∀ x ∈ xs, Succeeds (f x)
  | [] => iff_of_true (succeeds_ok _) fun x hx => by cases hx
  | x :: xs => by
    have hrest : ∀ b, Succeeds (do let bs ← xs.mapM f; return b :: bs) ↔ ∀ y ∈ xs, Succeeds (f y) := by
      intro b
      have hpure : ∀ bs : List β, Succeeds (pure (b :: bs) : Except ε (List β)) ↔ True :=
        fun bs => iff_true_intro (succeeds_pure _)
      rw [succeeds_bind_of_forall hpure, succeeds_mapM, and_true]
    rw [List.mapM_cons, succeeds_bind_of_forall hrest, List.forall_mem_cons]

/-- A loop whose steps are known. -/
theorem mapM_eq_ok {f : α → Except ε β} {g : α → β} : ∀ {xs : List α}, (∀ x ∈ xs, f x = .ok (g x)) →
    xs.mapM f = .ok (xs.map g)
  | [], _ => rfl
  | x :: xs, h => by
    have ih := mapM_eq_ok fun y hy => h y (List.mem_cons_of_mem x hy)
    rw [List.mapM_cons]
    exact bind_eq_ok.mpr ⟨_, h x List.mem_cons_self, bind_eq_ok.mpr ⟨_, ih, rfl⟩⟩

end CppTorrent.Lib.Fallible
