import Mathlib.Tactic

/-! # Queues with an index

A linked list of values with keys, and an index that maps a key to an iterator, here the cell of the
list element. A value is taken from the front of the list, and removed anywhere by its key, through the
iterator in the index. Erasing through an iterator whose element is gone is undefined.

`WellIndexed` says that the index is that of the list. The operations keep it, and under it no iterator
is stale: removing a key leaves the elements with the other keys (`WellIndexed.erase`). -/

namespace CppTorrent.Lib.IndexedQueue

/-- An element of the list, in its cell. -/
structure Element (κ α : Type) where
  cell : ℕ
  value : α
  key : κ

/-- A list and the index to it. -/
structure Queue (κ α : Type) where
  list : List (Element κ α)
  index : κ → Option ℕ

variable {κ α : Type}

/-- An empty queue. -/
def empty : Queue κ α := ⟨[], fun _ => none⟩

/-- Erases the element in a cell. -/
def eraseCell (cell : ℕ) (list : List (Element κ α)) : Option (List (Element κ α)) :=
  if cell ∈ list.map Element.cell then some (list.eraseP fun e => e.cell = cell) else none

section
variable [DecidableEq κ]

/-- Appends an element, and enters it into the index. -/
def Queue.push (cell : ℕ) (value : α) (key : κ) (q : Queue κ α) : Queue κ α :=
  ⟨q.list ++ [⟨cell, value, key⟩], Function.update q.index key (some cell)⟩

/-- Takes the first element, and removes it from the index. -/
def Queue.popFront (q : Queue κ α) : Option (Element κ α × Queue κ α) :=
  match q.list with
  | [] => none
  | e :: list => some (e, ⟨list, Function.update q.index e.key none⟩)

/-- Removes the element with a key, if there is one. -/
def Queue.erase (key : κ) (q : Queue κ α) : Option (Queue κ α) :=
  match q.index key with
  | none => some q
  | some cell =>
    (eraseCell cell q.list).map fun list => ⟨list, Function.update q.index key none⟩

theorem length_popFront {q q' : Queue κ α} {e : Element κ α} (h : q.popFront = some (e, q')) :
    q.list.length = q'.list.length + 1 := by
  unfold Queue.popFront at h
  cases hlist : q.list with
  | nil => rw [hlist] at h; cases h
  | cons e' list => rw [hlist] at h; cases h; rfl

theorem sublist_erase {q q' : Queue κ α} {key : κ} (h : q.erase key = some q') :
    q'.list.Sublist q.list := by
  unfold Queue.erase at h
  cases hindex : q.index key with
  | none => rw [hindex] at h; cases h; exact List.Sublist.refl _
  | some cell =>
    rw [hindex] at h
    obtain ⟨list, hlist, rfl⟩ := Option.map_eq_some_iff.mp h
    unfold eraseCell at hlist
    split_ifs at hlist
    cases hlist
    exact List.eraseP_sublist

end

/-- Of a list in which no value of `f` occurs twice, erasing the first element with a value erases all
of them. -/
theorem eraseP_eq_filter {β γ : Type} [DecidableEq γ] {f : β → γ} {c : γ} {l : List β}
    (h : (l.map f).Nodup) : (l.eraseP fun x => f x = c) = l.filter fun x => f x ≠ c := by
  induction l with
  | nil => rfl
  | cons x l ih =>
    rw [List.map_cons, List.nodup_cons] at h
    by_cases hx : f x = c
    · rw [List.eraseP_cons_of_pos (by simpa using hx), List.filter_cons_of_neg (by simpa using hx)]
      refine (List.filter_eq_self.mpr fun y hy => ?_).symm
      have hne : f y ≠ c := by
        rintro rfl
        exact h.1 (hx ▸ List.mem_map_of_mem hy)
      simpa using hne
    · rw [List.eraseP_cons_of_neg (by simpa using hx), List.filter_cons_of_pos (by simpa using hx),
        ih h.2]

/-- No cell and no key occurs twice, and the index maps the keys to their elements. -/
structure WellIndexed (q : Queue κ α) : Prop where
  cells : (q.list.map Element.cell).Nodup
  keys : (q.list.map Element.key).Nodup
  index : ∀ key cell, q.index key = some cell ↔ ∃ e ∈ q.list, e.key = key ∧ e.cell = cell

theorem wellIndexed_empty : WellIndexed (empty : Queue κ α) where
  cells := List.nodup_nil
  keys := List.nodup_nil
  index key cell := by simp [empty]

namespace WellIndexed

variable {q : Queue κ α}

/-- The keys of the index are those of the list. -/
theorem mem_keys_iff (h : WellIndexed q) (key : κ) :
    key ∈ q.list.map Element.key ↔ ∃ cell, q.index key = some cell := by
  rw [List.mem_map]
  constructor
  · rintro ⟨e, he, rfl⟩
    exact ⟨e.cell, (h.index _ _).mpr ⟨e, he, rfl, rfl⟩⟩
  · rintro ⟨cell, hcell⟩
    obtain ⟨e, he, hkey, -⟩ := (h.index _ _).mp hcell
    exact ⟨e, he, hkey⟩

theorem index_eq_none (h : WellIndexed q) {key : κ} (hkey : key ∉ q.list.map Element.key) :
    q.index key = none := by
  cases hindex : q.index key with
  | none => rfl
  | some cell => exact absurd ((h.mem_keys_iff key).mpr ⟨cell, hindex⟩) hkey

/-- Two elements with the same key are the same. -/
theorem eq_of_key (h : WellIndexed q) {e e' : Element κ α} (he : e ∈ q.list) (he' : e' ∈ q.list)
    (hkey : e.key = e'.key) : e = e' := List.inj_on_of_nodup_map h.keys he he' hkey

/-- Two elements in the same cell are the same. -/
theorem eq_of_cell (h : WellIndexed q) {e e' : Element κ α} (he : e ∈ q.list) (he' : e' ∈ q.list)
    (hcell : e.cell = e'.cell) : e = e' := List.inj_on_of_nodup_map h.cells he he' hcell

section
variable [DecidableEq κ]

theorem push (h : WellIndexed q) {cell : ℕ} {key : κ} (value : α)
    (hcell : cell ∉ q.list.map Element.cell) (hkey : key ∉ q.list.map Element.key) :
    WellIndexed (q.push cell value key) := by
  refine ⟨?_, ?_, fun key' cell' => ?_⟩
  · simp only [Queue.push, List.map_append, List.map_cons, List.map_nil]
    exact List.concat_eq_append ▸ h.cells.concat hcell
  · simp only [Queue.push, List.map_append, List.map_cons, List.map_nil]
    exact List.concat_eq_append ▸ h.keys.concat hkey
  · simp only [Queue.push, Function.update_apply, List.mem_append, List.mem_singleton]
    split_ifs with heq
    · subst heq
      constructor
      · rintro hc
        cases hc
        exact ⟨_, Or.inr rfl, rfl, rfl⟩
      · rintro ⟨e, he | rfl, hk, hc⟩
        · exact absurd (hk ▸ List.mem_map_of_mem he) hkey
        · exact congrArg some hc
    · rw [h.index]
      constructor
      · rintro ⟨e, he, hk⟩
        exact ⟨e, Or.inl he, hk⟩
      · rintro ⟨e, he | rfl, hk, hc⟩
        · exact ⟨e, he, hk, hc⟩
        · exact absurd hk.symm heq

theorem popFront (h : WellIndexed q) {e : Element κ α} {q' : Queue κ α}
    (hpop : q.popFront = some (e, q')) : q.list = e :: q'.list ∧ WellIndexed q' := by
  unfold Queue.popFront at hpop
  cases hlist : q.list with
  | nil =>
    rw [hlist] at hpop
    cases hpop
  | cons e' list =>
    rw [hlist] at hpop
    cases hpop
    have hcells := h.cells
    have hkeys := h.keys
    rw [hlist, List.map_cons, List.nodup_cons] at hcells hkeys
    refine ⟨rfl, hcells.2, hkeys.2, fun key cell => ?_⟩
    simp only [Function.update_apply]
    split_ifs with heq
    · refine iff_of_false (fun hc => by cases hc) ?_
      rintro ⟨e', he', hk, -⟩
      exact hkeys.1 (heq ▸ hk ▸ List.mem_map_of_mem he')
    · rw [h.index, hlist]
      constructor
      · rintro ⟨e', he', hk, hc⟩
        rcases List.mem_cons.mp he' with rfl | he'
        · exact absurd hk.symm heq
        · exact ⟨e', he', hk, hc⟩
      · rintro ⟨e', he', hk⟩
        exact ⟨e', List.mem_cons_of_mem _ he', hk⟩

/-- Removing a key that is not there changes nothing. -/
theorem erase_of_not_mem (h : WellIndexed q) {key : κ} (hkey : key ∉ q.list.map Element.key) :
    q.erase key = some q := by
  unfold Queue.erase
  rw [h.index_eq_none hkey]

/-- **Removing a key leaves the elements with other keys**; the iterator in the index is not stale. -/
theorem erase (h : WellIndexed q) (key : κ) :
    ∃ q', q.erase key = some q' ∧ q'.list = q.list.filter (fun e => e.key ≠ key) ∧
      WellIndexed q' := by
  by_cases hmem : key ∈ q.list.map Element.key
  · obtain ⟨e, he, rfl⟩ := List.mem_map.mp hmem
    have hindex : q.index e.key = some e.cell := (h.index _ _).mpr ⟨e, he, rfl, rfl⟩
    have herase : eraseCell e.cell q.list = some (q.list.filter fun e' => e'.key ≠ e.key) := by
      unfold eraseCell
      rw [if_pos (List.mem_map_of_mem he), eraseP_eq_filter h.cells]
      refine congrArg some (List.filter_congr fun e' he' => decide_eq_decide.mpr ?_)
      -- the element has its cell and its key for itself
      constructor
      · intro hne hkey
        exact hne (congrArg Element.cell (h.eq_of_key he' he hkey))
      · intro hne hcell
        exact hne (congrArg Element.key (h.eq_of_cell he' he hcell))
    refine ⟨⟨q.list.filter fun e' => e'.key ≠ e.key, Function.update q.index e.key none⟩, ?_, rfl,
      ?_, ?_, fun key cell => ?_⟩
    · unfold Queue.erase
      rw [hindex]
      dsimp only
      rw [herase]
      rfl
    · exact h.cells.sublist (List.filter_sublist.map _)
    · exact h.keys.sublist (List.filter_sublist.map _)
    · simp only [Function.update_apply, List.mem_filter, decide_eq_true_eq]
      split_ifs with heq
      · refine iff_of_false (fun hc => by cases hc) ?_
        rintro ⟨e', ⟨-, hne⟩, hk, -⟩
        exact hne (hk.trans heq)
      · rw [h.index]
        constructor
        · rintro ⟨e', he', rfl, hc⟩
          exact ⟨e', ⟨he', heq⟩, rfl, hc⟩
        · rintro ⟨e', ⟨he', -⟩, hk⟩
          exact ⟨e', he', hk⟩
  · refine ⟨q, h.erase_of_not_mem hmem, ?_, h⟩
    refine (List.filter_eq_self.mpr fun e he => ?_).symm
    have hne : e.key ≠ key := by
      rintro rfl
      exact hmem (List.mem_map_of_mem he)
    simpa using hne

end

end WellIndexed

end CppTorrent.Lib.IndexedQueue
