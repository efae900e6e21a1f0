import Mathlib.Tactic

/-! # Arrays that grow, and references into them

An array keeps its elements in one block of storage with room for `capacity` elements. Appending to a
full block moves the elements to a new block. A reference is an index and the block it was taken in;
once the elements have moved it refers to storage that is gone. `reserve` gives an empty array room
for a number of elements, and as long as there are fewer, appending leaves all references as they are
(`ValidIn.pushBack`). -/

namespace CppTorrent.Lib.Growable

/-- An array: its elements, the room in its block of storage, and the number of that block. -/
structure Vec (α : Type) where
  items : List α
  capacity : ℕ
  block : ℕ

/-- A reference to an element. -/
structure Ref where
  index : ℕ
  block : ℕ

/-- What can be wrong with an access. -/
inductive Misuse where
  /-- there is no element at the index -/
  | outOfRange
  /-- the elements have moved since the reference was taken -/
  | dangling
  deriving DecidableEq

variable {α β : Type}

/-- An empty array with room for `n` elements. -/
def reserve (n : ℕ) : Vec α := ⟨[], n, 0⟩

namespace Vec

/-- Appends an element; a full block is replaced by a larger one. -/
def pushBack (a : α) (v : Vec α) : Vec α :=
  if v.items.length < v.capacity then { v with items := v.items ++ [a] }
  else ⟨v.items ++ [a], 2 * v.capacity + 1, v.block + 1⟩

/-- A reference to the element at an index. -/
def ref (i : ℕ) (v : Vec α) : Except Misuse Ref :=
  if i < v.items.length then .ok ⟨i, v.block⟩ else .error .outOfRange

/-- Runs an operation on the element behind a reference. -/
def update (r : Ref) (f : α → β × α) (v : Vec α) : Except Misuse (β × Vec α) :=
  if r.block = v.block then
    match v.items[r.index]? with
    | none => .error .outOfRange
    | some a => .ok ((f a).1, { v with items := v.items.set r.index (f a).2 })
  else .error .dangling

end Vec

/-- The reference is to an element of the array. -/
def ValidIn (v : Vec α) (r : Ref) : Prop := r.block = v.block ∧ r.index < v.items.length

theorem Vec.ref_eq_ok {v : Vec α} {i : ℕ} (h : i < v.items.length) : v.ref i = .ok ⟨i, v.block⟩ :=
  if_pos h

theorem validIn_ref {v : Vec α} {i : ℕ} (h : i < v.items.length) : ValidIn v ⟨i, v.block⟩ :=
  ⟨rfl, h⟩

theorem Vec.update_eq_ok {v : Vec α} {r : Ref} {a : α} (h : ValidIn v r)
    (ha : v.items[r.index]? = some a) (f : α → β × α) :
    v.update r f = .ok ((f a).1, { v with items := v.items.set r.index (f a).2 }) := by
  unfold Vec.update
  rw [if_pos h.1, ha]

theorem Vec.pushBack_of_room {v : Vec α} (h : v.items.length < v.capacity) (a : α) :
    v.pushBack a = { v with items := v.items ++ [a] } := if_pos h

/-- Appending to an array that has room leaves a reference as it is. -/
theorem ValidIn.pushBack {v : Vec α} {r : Ref} (hr : ValidIn v r)
    (h : v.items.length < v.capacity) (a : α) : ValidIn (v.pushBack a) r := by
  rw [Vec.pushBack_of_room h]
  refine ⟨hr.1, ?_⟩
  rw [List.length_append, List.length_singleton]
  have hlt := hr.2
  omega

theorem ValidIn.set {v : Vec α} {r : Ref} (hr : ValidIn v r) (i : ℕ) (a : α) :
    ValidIn { v with items := v.items.set i a } r := by
  refine ⟨hr.1, ?_⟩
  rw [List.length_set]
  exact hr.2

end CppTorrent.Lib.Growable
