import Mathlib.Tactic

/-! # Moving an element of a list to its front

`moveToFront i` takes the element at a position out and puts it in front of the others. The elements
behind the position stay where they are (`drop_moveToFront`), so a loop that goes through the positions
upwards and moves some of the elements it meets still meets each of them in its place. -/

namespace CppTorrent.Lib.MoveToFront

variable {α : Type}

/-- Moves the element at a position to the front; `none` if there is none. -/
def moveToFront (i : ℕ) (l : List α) : Option (List α) := l[i]?.map fun x => x :: l.eraseIdx i

theorem moveToFront_of_lt {i : ℕ} {l : List α} (h : i < l.length) :
    moveToFront i l = some (l[i] :: l.eraseIdx i) := by
  unfold moveToFront
  rw [List.getElem?_eq_getElem h]
  rfl

variable {i : ℕ} {l l' : List α}

theorem eq_of_moveToFront (h : moveToFront i l = some l') :
    ∃ hi : i < l.length, l' = l[i] :: l.eraseIdx i := by
  obtain ⟨x, hx, rfl⟩ := Option.map_eq_some_iff.mp h
  obtain ⟨hi, rfl⟩ := List.getElem?_eq_some_iff.mp hx
  exact ⟨hi, rfl⟩

theorem perm_moveToFront (h : moveToFront i l = some l') : l'.Perm l := by
  obtain ⟨hi, rfl⟩ := eq_of_moveToFront h
  exact List.getElem_cons_eraseIdx_perm hi

theorem head?_moveToFront (h : moveToFront i l = some l') : l'.head? = l[i]? := by
  obtain ⟨hi, rfl⟩ := eq_of_moveToFront h
  rw [List.head?_cons, List.getElem?_eq_getElem hi]

/-- **What stands behind the position does not move.** -/
theorem drop_moveToFront (h : moveToFront i l = some l') : l'.drop (i + 1) = l.drop (i + 1) := by
  obtain ⟨hi, rfl⟩ := eq_of_moveToFront h
  rw [List.drop_succ_cons, List.eraseIdx_eq_take_drop_succ]
  exact List.drop_left' (List.length_take_of_le hi.le)

end CppTorrent.Lib.MoveToFront
