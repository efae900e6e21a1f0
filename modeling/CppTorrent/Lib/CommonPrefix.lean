import Mathlib.Tactic

/-! # The common prefix of two lists

`commonLength` counts the elements in which two lists agree before they differ for the first time or
one of them ends. It is the greatest length up to which the lists have the same front
(`le_commonLength_iff`), and every other fact about it is read off that. In particular it is an
ultrametric: of the three common lengths of three lists the two smaller ones are equal
(`min_le_commonLength`, `commonLength_eq_min`). -/

namespace CppTorrent.Lib.CommonPrefix

variable {α : Type} [DecidableEq α]

/-- The length of the longest common prefix. -/
def commonLength : List α → List α → ℕ
  | x :: xs, y :: ys => if x = y then commonLength xs ys + 1 else 0
  | [], _ => 0
  | _ :: _, [] => 0

/-- **The lists have the same front of a length, up to the length of their common prefix.** -/
theorem le_commonLength_iff : ∀ {xs ys : List α} {k : ℕ},
    k ≤ commonLength xs ys ↔ k ≤ xs.length ∧ k ≤ ys.length ∧ xs.take k = ys.take k
  | [], ys, k => by
    rw [commonLength, List.length_nil, Nat.le_zero]
    constructor
    · rintro rfl
      exact ⟨rfl, Nat.zero_le _, rfl⟩
    · exact fun h => h.1
  | x :: xs, [], k => by
    rw [commonLength, List.length_nil, Nat.le_zero]
    constructor
    · rintro rfl
      exact ⟨Nat.zero_le _, rfl, rfl⟩
    · exact fun h => h.2.1
  | x :: xs, y :: ys, 0 => by simp
  | x :: xs, y :: ys, k + 1 => by
    have ih : k ≤ commonLength xs ys ↔ k ≤ xs.length ∧ k ≤ ys.length ∧ xs.take k = ys.take k :=
      le_commonLength_iff
    rw [commonLength, List.take_succ_cons, List.take_succ_cons, List.length_cons, List.length_cons,
      List.cons.injEq]
    split_ifs with hxy
    · rw [Nat.add_le_add_iff_right, ih, Nat.add_le_add_iff_right, Nat.add_le_add_iff_right]
      exact and_congr_right fun _ => and_congr_right fun _ => (and_iff_right hxy).symm
    · refine iff_of_false (by omega) ?_
      rintro ⟨-, -, h, -⟩
      exact hxy h

theorem commonLength_comm (xs ys : List α) : commonLength xs ys = commonLength ys xs := by
  refine eq_of_forall_le_iff fun k => ?_
  rw [le_commonLength_iff, le_commonLength_iff, eq_comm (a := xs.take k)]
  tauto

theorem commonLength_self (xs : List α) : commonLength xs xs = xs.length :=
  eq_of_forall_le_iff fun k => by simp [le_commonLength_iff]

/-- **The ultrametric law.** -/
theorem min_le_commonLength (xs ys zs : List α) :
    min (commonLength xs ys) (commonLength ys zs) ≤ commonLength xs zs := by
  obtain ⟨hx, -, hxy⟩ := le_commonLength_iff.mp (min_le_left (commonLength xs ys) (commonLength ys zs))
  obtain ⟨-, hz, hyz⟩ := le_commonLength_iff.mp (min_le_right (commonLength xs ys) (commonLength ys zs))
  exact le_commonLength_iff.mpr ⟨hx, hz, hxy.trans hyz⟩

/-- **It is an equality if the two lengths differ**: the law, from the third list backwards. -/
theorem commonLength_eq_min {xs ys zs : List α} (h : commonLength xs ys ≠ commonLength ys zs) :
    commonLength xs zs = min (commonLength xs ys) (commonLength ys zs) := by
  have h1 := min_le_commonLength xs ys zs
  have h2 := min_le_commonLength xs zs ys
  have h3 := min_le_commonLength ys xs zs
  rw [commonLength_comm zs ys] at h2
  rw [commonLength_comm ys xs] at h3
  omega

end CppTorrent.Lib.CommonPrefix
