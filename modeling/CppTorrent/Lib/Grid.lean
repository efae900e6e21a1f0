import Mathlib.Tactic

/-! # Rows that are indexed as a grid

Rows of different sizes, one after the other, are indexed by a division as if they were the rows of a
grid of one width: position `i` is column `i % mid` of row `i / mid`. If every position up to the total
size is inside its row, the rows are those of a grid: all of the width until one that is not wider, and
empty ones behind it (`stacked_of_inside`). The argument is a count: rows that hold the first positions
of a grid hold as many elements (`le_sum_of_inside`). -/

namespace CppTorrent.Lib.Grid

/-- The first `n` positions of a grid of a width are inside rows of some sizes. -/
def Inside (mid n : ℕ) (sizes : List ℕ) : Prop :=
  ∀ i < n, ∃ x, sizes[i / mid]? = some x ∧ i % mid < x

/-- Rows of one width up to one that is not wider, and empty ones behind it. -/
def Stacked (mid : ℕ) : List ℕ → Prop
  | [] => True
  | x :: sizes => (x = mid ∧ Stacked mid sizes) ∨ (x ≤ mid ∧ ∀ y ∈ sizes, y = 0)

variable {mid : ℕ}

/-- The positions behind the first row. -/
theorem Inside.tail (hmid : 0 < mid) {n x : ℕ} {sizes : List ℕ} (h : Inside mid n (x :: sizes)) :
    Inside mid (n - mid) sizes := by
  intro i hi
  obtain ⟨y, hy, hlt⟩ := h (i + mid) (by omega)
  rw [Nat.add_div_right i hmid, List.getElem?_cons_succ] at hy
  rw [Nat.add_mod_right] at hlt
  exact ⟨y, hy, hlt⟩

/-- The first row holds its positions. -/
theorem Inside.head {n x : ℕ} {sizes : List ℕ} (h : Inside mid n (x :: sizes)) :
    min n mid ≤ x := by
  rcases Nat.eq_zero_or_pos (min n mid) with h0 | hpos
  · rw [h0]
    exact Nat.zero_le x
  · obtain ⟨y, hy, hlt⟩ := h (min n mid - 1) (by omega)
    have hsmall : min n mid - 1 < mid := by omega
    rw [Nat.div_eq_of_lt hsmall, List.getElem?_cons_zero] at hy
    obtain rfl : x = y := Option.some.inj hy
    rw [Nat.mod_eq_of_lt hsmall] at hlt
    omega

/-- **Rows that hold positions hold as many elements.** -/
theorem le_sum_of_inside (hmid : 0 < mid) : ∀ {sizes : List ℕ} {n : ℕ}, Inside mid n sizes →
    n ≤ sizes.sum
  | [], n, h => by
    by_contra hlt
    obtain ⟨x, hx, -⟩ := h 0 (not_le.mp hlt)
    simp at hx
  | x :: sizes, n, h => by
    have hhead := h.head
    have htail := le_sum_of_inside hmid (h.tail hmid)
    rw [List.sum_cons]
    omega

/-- **Rows that hold every position up to their total size are those of a grid.** -/
theorem stacked_of_inside (hmid : 0 < mid) : ∀ {sizes : List ℕ}, Inside mid sizes.sum sizes →
    Stacked mid sizes
  | [], _ => trivial
  | x :: sizes, h => by
    have hhead := h.head
    have htail := h.tail hmid
    have hle := le_sum_of_inside hmid htail
    rw [List.sum_cons] at hhead htail hle
    rcases Nat.lt_or_ge mid (x + sizes.sum) with hlt | hge
    · -- the first row has the width, by the count of the others
      have hx : x = mid := by omega
      rw [hx, Nat.add_sub_cancel_left] at htail
      exact Or.inl ⟨hx, stacked_of_inside hmid htail⟩
    · have hzero : sizes.sum = 0 := by omega
      exact Or.inr ⟨by omega, List.sum_eq_zero_iff.mp hzero⟩

/-- No row of a grid is wider than it. -/
theorem Stacked.le : ∀ {sizes : List ℕ}, Stacked mid sizes → ∀ y ∈ sizes, y ≤ mid
  | x :: sizes, h, y, hy => by
    rcases h with ⟨hx, h⟩ | ⟨hx, hzero⟩
    · rcases List.mem_cons.mp hy with rfl | hy
      · exact hx.le
      · exact Stacked.le h y hy
    · rcases List.mem_cons.mp hy with rfl | hy
      · exact hx
      · rw [hzero y hy]
        exact Nat.zero_le mid

/-- If there are no more rows than a width `bound` needs, only the last row is not full. -/
theorem Stacked.eq_of_mem_dropLast {bound : ℕ} (hbound : mid ≤ bound) : ∀ {sizes : List ℕ},
    Stacked mid sizes → (sizes.length - 1) * bound < sizes.sum → ∀ y ∈ sizes.dropLast, y = mid
  | [], _, _, y, hy => by cases hy
  | [x], _, _, y, hy => by cases hy
  | x :: z :: sizes, h, hlen, y, hy => by
    rw [List.length_cons, List.length_cons, Nat.add_sub_cancel, List.sum_cons, Nat.add_mul,
      Nat.one_mul] at hlen
    rcases h with ⟨hx, h⟩ | ⟨hx, hzero⟩
    · rw [List.dropLast_cons_cons] at hy
      rcases List.mem_cons.mp hy with rfl | hy
      · exact hx
      · refine Stacked.eq_of_mem_dropLast hbound h ?_ y hy
        rw [List.length_cons, Nat.add_sub_cancel]
        omega
    · have hsum : (z :: sizes).sum = 0 := List.sum_eq_zero_iff.mpr hzero
      omega

end CppTorrent.Lib.Grid
