import Mathlib.Tactic

/-! # Histories

What a party has sent is a list of messages that only grows; the other party handles them in the same
order, so what it has handled is a prefix of the list. `Each P` says that every message fits to those
before it. This is checked where a message is added (`each_concat`), and it is what the other party may
rely on when it comes to the message, however much has been added since (`Each.of_isPrefix`).

Some messages set a value, and the last of them counts: `told`. Where only the kind of the messages that
are added matters, the lists before and after are related by `Extends`. -/

namespace CppTorrent.Lib.History

variable {M V : Type}

/-- Every message fits to the messages before it. -/
def Each (P : List M → M → Prop) (ms : List M) : Prop :=
  ∀ before msg after, ms = before ++ msg :: after → P before msg

theorem each_nil (P : List M → M → Prop) : Each P [] := by
  intro before msg after h
  exact absurd h.symm (List.append_ne_nil_of_right_ne_nil _ (List.cons_ne_nil _ _))

/-- **A message is added.** -/
theorem each_concat {P : List M → M → Prop} {ms : List M} {m : M} :
    Each P (ms ++ [m]) ↔ Each P ms ∧ P ms m := by
  constructor
  · intro h
    refine ⟨fun before msg after hms => h before msg (after ++ [m]) ?_, h ms m [] rfl⟩
    rw [hms, List.append_assoc, List.cons_append]
  · rintro ⟨hms, hm⟩ before msg after heq
    rcases List.eq_nil_or_concat after with rfl | ⟨after, last, rfl⟩
    · obtain ⟨rfl, hlast⟩ := List.append_inj' heq rfl
      rw [← List.singleton_inj.mp hlast]
      exact hm
    · have hsplit : ms ++ [m] = (before ++ msg :: after) ++ [last] := by
        rw [heq, List.concat_eq_append, List.append_assoc, List.cons_append]
      exact hms before msg after (List.append_inj' hsplit rfl).1

/-- **A message is handled.** -/
theorem Each.of_isPrefix {P : List M → M → Prop} {ms before : List M} {msg : M} (h : Each P ms)
    (hle : before ++ [msg] <+: ms) : P before msg := by
  obtain ⟨after, rfl⟩ := hle
  refine h before msg after ?_
  rw [List.append_assoc, List.singleton_append]

/-- **The next message.** -/
theorem concat_isPrefix {before ms : List M} {m : M} (h : before <+: ms)
    (hm : ms[before.length]? = some m) : before ++ [m] <+: ms := by
  obtain ⟨rest, rfl⟩ := h
  rw [List.getElem?_append_right le_rfl, Nat.sub_self] at hm
  cases rest with
  | nil => cases hm
  | cons m' rest =>
    obtain rfl : m' = m := Option.some.inj hm
    exact ⟨rest, List.append_assoc before [m'] rest⟩

theorem Each.imp {P Q : List M → M → Prop} {ms : List M} (h : Each P ms)
    (hPQ : ∀ before msg, P before msg → Q before msg) : Each Q ms :=
  fun before msg after hms => hPQ before msg (h before msg after hms)

/-- The value set by the last message that sets one. -/
def told (sets : M → Option V) (v : V) (ms : List M) : V :=
  ms.foldl (fun v m => (sets m).getD v) v

@[simp] theorem told_nil (sets : M → Option V) (v : V) : told sets v [] = v := rfl

@[simp] theorem told_concat (sets : M → Option V) (v : V) (ms : List M) (m : M) :
    told sets v (ms ++ [m]) = (sets m).getD (told sets v ms) := by
  rw [told, List.foldl_append]
  rfl

/-- Where the value has changed, a message has set it. -/
theorem exists_of_told {sets : M → Option V} {v : V} {ms : List M} (h : told sets v ms ≠ v) :
    ∃ m ∈ ms, sets m = some (told sets v ms) := by
  induction ms using List.reverseRecOn with
  | nil => exact absurd rfl h
  | append_singleton ms m ih =>
    rw [told_concat] at h ⊢
    cases hm : sets m with
    | some w =>
      rw [Option.getD_some]
      exact ⟨m, List.mem_append_right _ List.mem_cons_self, hm⟩
    | none =>
      rw [hm, Option.getD_none] at h
      obtain ⟨m', hmem, hset⟩ := ih h
      exact ⟨m', List.mem_append_left _ hmem, hset⟩

/-- Where the value is back at the one before, and a message has set another one, a message has set it
back. -/
theorem exists_of_told_eq {sets : M → Option V} {v : V} {ms : List M} (h : told sets v ms = v)
    (hset : ∃ m ∈ ms, ∃ w, sets m = some w ∧ w ≠ v) : ∃ m ∈ ms, sets m = some v := by
  induction ms using List.reverseRecOn with
  | nil => simp at hset
  | append_singleton ms m ih =>
    rw [told_concat] at h
    cases hm : sets m with
    | some w =>
      rw [hm, Option.getD_some] at h
      exact ⟨m, List.mem_append_right _ List.mem_cons_self, by rw [hm, h]⟩
    | none =>
      rw [hm, Option.getD_none] at h
      obtain ⟨m', hmem, w, hw, hne⟩ := hset
      rcases List.mem_append.mp hmem with hmem | hmem
      · obtain ⟨m'', hmem'', hback⟩ := ih h ⟨m', hmem, w, hw, hne⟩
        exact ⟨m'', List.mem_append_left _ hmem'', hback⟩
      · rw [List.mem_singleton.mp hmem, hm] at hw
        cases hw

/-- Only such messages are added. -/
def Extends (P : M → Prop) (before after : List M) : Prop :=
  ∃ added, after = before ++ added ∧ ∀ msg ∈ added, P msg

variable {P : M → Prop} {ms ms' ms'' : List M}

theorem Extends.refl (P : M → Prop) (ms : List M) : Extends P ms ms :=
  ⟨[], (List.append_nil ms).symm, nofun⟩

theorem Extends.trans (h : Extends P ms ms') (h' : Extends P ms' ms'') : Extends P ms ms'' := by
  obtain ⟨added, rfl, hadded⟩ := h
  obtain ⟨added', rfl, hadded'⟩ := h'
  refine ⟨added ++ added', List.append_assoc ms added added', fun msg hmem => ?_⟩
  exact (List.mem_append.mp hmem).elim (hadded msg) (hadded' msg)

theorem Extends.imp {Q : M → Prop} (h : Extends P ms ms') (hPQ : ∀ msg, P msg → Q msg) :
    Extends Q ms ms' := by
  obtain ⟨added, rfl, hadded⟩ := h
  exact ⟨added, rfl, fun msg hmem => hPQ msg (hadded msg hmem)⟩

theorem Extends.of_mem {m : M} (h : Extends P ms ms') (hm : m ∈ ms') (hnot : ¬ P m) : m ∈ ms := by
  obtain ⟨added, rfl, hadded⟩ := h
  exact (List.mem_append.mp hm).resolve_right fun hmem => hnot (hadded m hmem)

theorem extends_concat {m : M} (ms : List M) (hm : P m) : Extends P ms (ms ++ [m]) :=
  ⟨[m], rfl, fun _ hmem => List.mem_singleton.mp hmem ▸ hm⟩

theorem Extends.isPrefix (h : Extends P ms ms') : ms <+: ms' := by
  obtain ⟨added, rfl, -⟩ := h
  exact List.prefix_append ms added

/-- What the added messages do not count for is as before. -/
theorem Extends.filterMap_eq {f : M → Option V} (h : Extends P ms ms') (hf : ∀ msg, P msg → f msg = none) :
    ms'.filterMap f = ms.filterMap f := by
  obtain ⟨added, rfl, hadded⟩ := h
  have hnil : added.filterMap f = [] :=
    List.filterMap_eq_nil_iff.mpr fun msg hmem => hf msg (hadded msg hmem)
  rw [List.filterMap_append, hnil, List.append_nil]

end CppTorrent.Lib.History
