import CppTorrent.Lib.Runs

/-! # Simulation

One machine simulates another if every step of the other is matched by a run of the one, possibly
empty, and the states stay related. Then every run is matched by a run (`exists_run_of_simulation`).

Where some steps lower a potential and no step raises it, it bounds their number in a run
(`countP_le_of_run`). The potential of many parties is the sum of theirs (`sum_update`). -/

namespace CppTorrent.Lib.Simulation

open CppTorrent.Lib.Runs

variable {S E T F : Type} {step : S → E → Option S} {step' : T → F → Option T} {R : S → T → Prop}

/-- **The simulation rule.** -/
theorem exists_run_of_simulation
    (hstep : ∀ s e s' t, R s t → step s e = some s' → ∃ fs t', run step' t fs = some t' ∧ R s' t') :
    ∀ {es : List E} {s s' : S} {t : T}, R s t → run step s es = some s' →
      ∃ fs t', run step' t fs = some t' ∧ R s' t'
  | [], _, _, t, hr, h => by cases h; exact ⟨[], t, rfl, hr⟩
  | e :: es, s, s', t, hr, h => by
    obtain ⟨s1, h1, h2⟩ := run_cons h
    obtain ⟨fs, t1, hfs, hr1⟩ := hstep s e s1 t hr h1
    obtain ⟨fs', t', hfs', hr'⟩ := exists_run_of_simulation hstep hr1 h2
    refine ⟨fs ++ fs', t', ?_, hr'⟩
    rw [run_append, hfs, Option.bind_some, hfs']

/-- A step is matched by none. -/
theorem matched_nil {s : S} {t : T} (h : R s t) : ∃ fs t', run step' t fs = some t' ∧ R s t' :=
  ⟨[], t, rfl, h⟩

/-- A step is matched by one. -/
theorem matched_one {s : S} {t t' : T} {f : F} (ht : step' t f = some t') (h : R s t') :
    ∃ fs t', run step' t fs = some t' ∧ R s t' :=
  ⟨[f], t', by rw [run, ht]; rfl, h⟩

/-- **The counting rule**: where no step raises a potential, and the steps that count lower it, the
potential bounds their number. -/
theorem countP_le_of_run (Inv : S → Prop) (potential : S → ℕ) (counts : E → Bool)
    (hstep : ∀ s e s', Inv s → step s e = some s' →
      Inv s' ∧ potential s' + (if counts e then 1 else 0) ≤ potential s) :
    ∀ {es : List E} {s s' : S}, Inv s → run step s es = some s' →
      Inv s' ∧ potential s' + es.countP counts ≤ potential s
  | [], _, _, hi, h => by cases h; exact ⟨hi, le_rfl⟩
  | e :: es, s, s', hi, h => by
    obtain ⟨s1, h1, h2⟩ := run_cons h
    obtain ⟨hi1, hle⟩ := hstep s e s1 hi h1
    obtain ⟨hi', hle'⟩ := countP_le_of_run Inv potential counts hstep hi1 h2
    refine ⟨hi', ?_⟩
    rw [List.countP_cons]
    omega

/-- **One party moves.** -/
theorem sum_update {ι α : Type} [Fintype ι] [DecidableEq ι] (f : α → ℕ) (g : ι → α) (i : ι) (x : α) :
    ∑ j, f (Function.update g i x j) + f (g i) = ∑ j, f (g j) + f x := by
  have hsplit := Finset.add_sum_erase Finset.univ (fun j => f (Function.update g i x j)) (Finset.mem_univ i)
  have hsplit' := Finset.add_sum_erase Finset.univ (fun j => f (g j)) (Finset.mem_univ i)
  have hrest : ∑ j ∈ Finset.univ.erase i, f (Function.update g i x j) =
      ∑ j ∈ Finset.univ.erase i, f (g j) :=
    Finset.sum_congr rfl fun j hj => by rw [Function.update_of_ne (Finset.ne_of_mem_erase hj)]
  rw [Function.update_self] at hsplit
  omega

end CppTorrent.Lib.Simulation
