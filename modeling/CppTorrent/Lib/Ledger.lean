import Mathlib.Tactic

/-! # Marks and their owners

A set of marks, each of which has exactly one owner: a holder, which holds at most one thing at a
time, or a place in a queue. `Balanced` is that, and the rules say how it is kept when a holder claims
a thing or releases it, when it hands it over to the queue, and when the queue is done with it. -/

namespace CppTorrent.Lib.Ledger

variable {ι α : Type}

/-- Exactly the things held or queued are marked, and nothing is owned twice. -/
structure Balanced (held : ι → Option α) (queued : List α) (marks : Finset α) : Prop where
  marked : ∀ a, a ∈ marks ↔ (∃ p, held p = some a) ∨ a ∈ queued
  unique : ∀ p q a, held p = some a → held q = some a → p = q
  apart : ∀ p a, held p = some a → a ∉ queued
  nodup : queued.Nodup

theorem balanced_empty : Balanced (fun _ : ι => (none : Option α)) [] ∅ where
  marked := by simp
  unique := by simp
  apart := by simp
  nodup := List.nodup_nil

/-- The order of the queue does not matter. -/
theorem Balanced.perm {held : ι → Option α} {queued queued' : List α} {marks : Finset α}
    (h : Balanced held queued marks) (hp : queued.Perm queued') : Balanced held queued' marks where
  marked a := by
    rw [h.marked a, hp.mem_iff]
  unique := h.unique
  apart p a ha hmem := h.apart p a ha (hp.mem_iff.mpr hmem)
  nodup := hp.nodup_iff.mp h.nodup

section
variable [DecidableEq ι] {held : ι → Option α} {queued : List α} {marks : Finset α} {p : ι} {a : α}

/-- What somebody holds after a change is what was held before, or the change. -/
theorem eq_or_of_update {o : Option α} {q : ι} {b : α}
    (h : Function.update held p o q = some b) : (q = p ∧ o = some b) ∨ (q ≠ p ∧ held q = some b) := by
  by_cases hq : q = p
  · subst hq
    rw [Function.update_self] at h
    exact .inl ⟨rfl, h⟩
  · rw [Function.update_of_ne hq] at h
    exact .inr ⟨hq, h⟩

/-- A holder that holds nothing claims a thing that is not marked. -/
theorem Balanced.claim [DecidableEq α] (h : Balanced held queued marks) (hp : held p = none)
    (ha : a ∉ marks) :
    Balanced (Function.update held p (some a)) queued (insert a marks) := by
  have hfree : (∀ q, held q ≠ some a) ∧ a ∉ queued := by
    rw [h.marked a] at ha
    push Not at ha
    exact ha
  refine ⟨fun b => ?_, fun q q' b hq hq' => ?_, fun q b hq hb => ?_, h.nodup⟩
  · rw [Finset.mem_insert, h.marked b]
    constructor
    · rintro (rfl | ⟨q, hq⟩ | hb)
      · exact .inl ⟨p, Function.update_self p _ held⟩
      · refine .inl ⟨q, ?_⟩
        rw [Function.update_of_ne, hq]
        rintro rfl
        rw [hp] at hq
        cases hq
      · exact .inr hb
    · rintro (⟨q, hq⟩ | hb)
      · rcases eq_or_of_update hq with ⟨-, hq⟩ | ⟨-, hq⟩
        · exact .inl (Option.some.inj hq).symm
        · exact .inr (.inl ⟨q, hq⟩)
      · exact .inr (.inr hb)
  · rcases eq_or_of_update hq with ⟨h1, h2⟩ | ⟨-, h2⟩ <;>
      rcases eq_or_of_update hq' with ⟨h3, h4⟩ | ⟨-, h4⟩
    · exact h1.trans h3.symm
    · exact absurd (h4.trans h2.symm) (hfree.1 q')
    · exact absurd (h2.trans h4.symm) (hfree.1 q)
    · exact h.unique q q' b h2 h4
  · rcases eq_or_of_update hq with ⟨-, hq⟩ | ⟨-, hq⟩
    · exact hfree.2 (Option.some.inj hq ▸ hb)
    · exact h.apart q b hq hb

/-- What somebody else holds is something else. -/
theorem Balanced.ne_of_held (h : Balanced held queued marks) (hp : held p = some a) {q : ι} {b : α}
    (hq : Function.update held p none q = some b) : held q = some b ∧ b ≠ a := by
  rcases eq_or_of_update hq with ⟨-, hq⟩ | ⟨hne, hq⟩
  · cases hq
  · refine ⟨hq, ?_⟩
    rintro rfl
    exact hne (h.unique q p b hq hp)

theorem Balanced.exists_held_iff (h : Balanced held queued marks) (hp : held p = some a) {b : α} :
    (∃ q, Function.update held p none q = some b) ↔ b ≠ a ∧ ∃ q, held q = some b := by
  constructor
  · rintro ⟨q, hq⟩
    obtain ⟨hq, hne⟩ := h.ne_of_held hp hq
    exact ⟨hne, q, hq⟩
  · rintro ⟨hne, q, hq⟩
    refine ⟨q, ?_⟩
    rw [Function.update_of_ne, hq]
    rintro rfl
    exact hne (Option.some.inj (hq.symm.trans hp))

/-- A holder releases what it holds. -/
theorem Balanced.release [DecidableEq α] (h : Balanced held queued marks) (hp : held p = some a) :
    Balanced (Function.update held p none) queued (marks.erase a) := by
  refine ⟨fun b => ?_, fun q q' b hq hq' => ?_, fun q b hq => ?_, h.nodup⟩
  · rw [Finset.mem_erase, h.marked b, h.exists_held_iff hp]
    constructor
    · rintro ⟨hne, hq | hb⟩
      · exact .inl ⟨hne, hq⟩
      · exact .inr hb
    · rintro (⟨hne, hq⟩ | hb)
      · exact ⟨hne, .inl hq⟩
      · refine ⟨?_, .inr hb⟩
        rintro rfl
        exact h.apart p b hp hb
  · exact h.unique q q' b (h.ne_of_held hp hq).1 (h.ne_of_held hp hq').1
  · exact h.apart q b (h.ne_of_held hp hq).1

/-- A holder hands what it holds over to the queue. -/
theorem Balanced.handOver (h : Balanced held queued marks) (hp : held p = some a) :
    Balanced (Function.update held p none) (queued ++ [a]) marks := by
  refine ⟨fun b => ?_, fun q q' b hq hq' => ?_, fun q b hq => ?_, ?_⟩
  · rw [h.marked b, h.exists_held_iff hp, List.mem_append, List.mem_singleton]
    by_cases hb : b = a
    · subst hb
      exact iff_of_true (.inl ⟨p, hp⟩) (.inr (.inr rfl))
    · simp [hb]
  · exact h.unique q q' b (h.ne_of_held hp hq).1 (h.ne_of_held hp hq').1
  · obtain ⟨hq, hne⟩ := h.ne_of_held hp hq
    simp [h.apart q b hq, hne]
  · exact h.nodup.append (List.nodup_singleton a) (by simpa using h.apart p a hp)

end

/-- The queue is done with a thing. -/
theorem Balanced.finish [DecidableEq α] {held : ι → Option α} {queued : List α} {marks : Finset α}
    {a : α} (h : Balanced held queued marks) {k : ℕ} (hk : queued[k]? = some a) :
    Balanced held (queued.eraseIdx k) (marks.erase a) := by
  obtain ⟨hlt, hget⟩ := List.getElem?_eq_some_iff.mp hk
  have hmem : a ∈ queued := List.mem_of_getElem? hk
  have herase : queued.eraseIdx k = queued.erase a := by
    rw [← hget]
    exact (List.Nodup.erase_getElem h.nodup k hlt).symm
  rw [herase]
  refine ⟨fun b => ?_, h.unique, fun q b hq hb => h.apart q b hq (List.mem_of_mem_erase hb),
    h.nodup.erase a⟩
  rw [Finset.mem_erase, h.marked b, h.nodup.mem_erase_iff]
  constructor
  · rintro ⟨hne, hq | hb⟩
    · exact .inl hq
    · exact .inr ⟨hne, hb⟩
  · rintro (⟨q, hq⟩ | ⟨hne, hb⟩)
    · refine ⟨?_, .inl ⟨q, hq⟩⟩
      rintro rfl
      exact h.apart q b hq hmem
    · exact ⟨hne, .inr hb⟩

end CppTorrent.Lib.Ledger
