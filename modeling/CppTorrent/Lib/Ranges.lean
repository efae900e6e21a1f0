import Mathlib.Tactic

/-! # Rows of ranges

A range is an offset and a length. `Contiguous b l` says that each range of the row begins where the
one before it ends, the first at `b`. The ranges of such a row cover what lies between its ends, each
offset once. -/

namespace CppTorrent.Lib.Ranges

/-- The first range begins at an offset, each other one where the one before it ends. -/
def Contiguous : ℕ → List (ℕ × ℕ) → Prop
  | _, [] => True
  | b, r :: l => r.1 = b ∧ Contiguous (b + r.2) l

/-- The sum of the lengths. -/
def total (l : List (ℕ × ℕ)) : ℕ := (l.map Prod.snd).sum

theorem total_cons (r : ℕ × ℕ) (l : List (ℕ × ℕ)) : total (r :: l) = r.2 + total l := by
  unfold total
  rw [List.map_cons, List.sum_cons]

/-- Ranges of one length. -/
theorem total_of_forall {n : ℕ} {l : List (ℕ × ℕ)} (h : ∀ r ∈ l, r.2 = n) :
    total l = l.length * n := by
  induction l with
  | nil => rw [List.length_nil, Nat.zero_mul]; rfl
  | cons r l ih =>
    have ih' := ih fun r' hr' => h r' (List.mem_cons_of_mem _ hr')
    rw [total_cons, h r List.mem_cons_self, ih', List.length_cons, Nat.add_mul, Nat.one_mul,
      Nat.add_comm]

theorem contiguous_append {b : ℕ} {l l' : List (ℕ × ℕ)} :
    Contiguous b (l ++ l') ↔ Contiguous b l ∧ Contiguous (b + total l) l' := by
  induction l generalizing b with
  | nil => exact (and_iff_right trivial).symm
  | cons r l ih =>
    rw [List.cons_append, Contiguous, Contiguous, ih, total_cons, and_assoc, Nat.add_assoc]

namespace Contiguous

variable {b : ℕ} {l : List (ℕ × ℕ)}

/-- The ranges lie between the ends of the row. -/
theorem bounds (h : Contiguous b l) : ∀ r ∈ l, b ≤ r.1 ∧ r.1 + r.2 ≤ b + total l := by
  induction l generalizing b with
  | nil => simp
  | cons r l ih =>
    obtain ⟨hr, hl⟩ := h
    intro r' hr'
    rw [total_cons]
    rcases List.mem_cons.mp hr' with rfl | hr'
    · omega
    · have hbounds := ih hl r' hr'
      omega

/-- Each range ends before the later ones begin. -/
theorem pairwise (h : Contiguous b l) : l.Pairwise fun r r' => r.1 + r.2 ≤ r'.1 := by
  induction l generalizing b with
  | nil => exact List.Pairwise.nil
  | cons r l ih =>
    obtain ⟨hr, hl⟩ := h
    refine List.pairwise_cons.mpr ⟨fun r' hr' => ?_, ih hl⟩
    have hbounds := hl.bounds r' hr'
    omega

/-- **The row covers what lies between its ends.** -/
theorem covers (h : Contiguous b l) (x : ℕ) :
    (∃ r ∈ l, r.1 ≤ x ∧ x < r.1 + r.2) ↔ b ≤ x ∧ x < b + total l := by
  constructor
  · rintro ⟨r, hr, hle, hlt⟩
    have hbounds := h.bounds r hr
    omega
  · intro hx
    induction l generalizing b with
    | nil =>
      have hzero : total [] = 0 := rfl
      omega
    | cons r l ih =>
      obtain ⟨hr, hl⟩ := h
      rw [total_cons] at hx
      rcases Nat.lt_or_ge x (b + r.2) with hlt | hge
      · exact ⟨r, List.mem_cons_self, by omega, by omega⟩
      · obtain ⟨r', hr', hx'⟩ := ih hl (by omega)
        exact ⟨r', List.mem_cons_of_mem _ hr', hx'⟩

/-- What a row from 0 covers is its length. -/
theorem total_eq (h : Contiguous 0 l) {n : ℕ}
    (hcovers : ∀ x, x < n ↔ ∃ r ∈ l, r.1 ≤ x ∧ x < r.1 + r.2) : total l = n := by
  have hlt : ∀ x, x < n ↔ x < total l := by
    intro x
    rw [hcovers x, h.covers x]
    omega
  have h1 := hlt n
  have h2 := hlt (total l)
  omega

end Contiguous

end CppTorrent.Lib.Ranges
