import Mathlib.Data.List.Lex
import Mathlib.Tactic

/-! # Ordered maps

A map with ordered keys is the list of its entries, keys strictly ascending (`Ascending`). `emplace`
inserts an entry at its place and does nothing if the key is there already, `assign` replaces the
value then. `find` looks a key up, in any list of entries the first one. Byte strings are ordered
lexicographically by unsigned bytes.

A map is determined by what `find` finds (`ext_find`), so emplacing the entries of a list one after
the other gives the map in which the first entry of each key wins (`foldl_emplace`). -/

namespace CppTorrent.Lib.OrderedMap

/-- Bytes are ordered as unsigned numbers. -/
instance linearOrderUInt8 : LinearOrder UInt8 where
  le_refl := UInt8.le_refl
  le_trans _ _ _ := UInt8.le_trans
  le_antisymm _ _ := UInt8.le_antisymm
  le_total := UInt8.le_total
  lt_iff_le_not_ge a b := by
    rw [UInt8.lt_iff_toNat_lt, UInt8.le_iff_toNat_le, UInt8.le_iff_toNat_le]; omega
  toDecidableLE a b := inferInstanceAs (Decidable (a ≤ b))
  toDecidableLT a b := inferInstanceAs (Decidable (a < b))
  toDecidableEq := inferInstance

variable {κ ν : Type} [LinearOrder κ]

/-- The keys are strictly ascending. -/
def Ascending (d : List (κ × ν)) : Prop := d.Pairwise fun a b => a.1 < b.1

/-- Inserts an entry unless its key is present. -/
def emplace (k : κ) (v : ν) : List (κ × ν) → List (κ × ν)
  | [] => [(k, v)]
  | e :: d => if k < e.1 then (k, v) :: e :: d else if e.1 < k then e :: emplace k v d else e :: d

theorem mem_emplace {k : κ} {v : ν} {x : κ × ν} : ∀ {d : List (κ × ν)},
    x ∈ emplace k v d → x = (k, v) ∨ x ∈ d
  | [], h => Or.inl (by simpa [emplace] using h)
  | e :: d, h => by
    unfold emplace at h
    split_ifs at h with h1 h2
    · rcases List.mem_cons.mp h with rfl | h
      · exact Or.inl rfl
      · exact Or.inr h
    · rcases List.mem_cons.mp h with rfl | h
      · exact Or.inr (by simp)
      · rcases mem_emplace h with h | h
        · exact Or.inl h
        · exact Or.inr (by simp [h])
    · exact Or.inr h

/-- A key below all others goes to the front. -/
theorem ascending_cons {k : κ} (v : ν) {e : κ × ν} {d : List (κ × ν)} (h : Ascending (e :: d))
    (hk : k < e.1) : Ascending ((k, v) :: e :: d) := by
  refine List.pairwise_cons.mpr ⟨fun x hx => ?_, h⟩
  rcases List.mem_cons.mp hx with rfl | hx
  · exact hk
  · exact lt_trans hk ((List.pairwise_cons.mp h).1 x hx)

/-- **`emplace` keeps the keys ascending.** -/
theorem ascending_emplace (k : κ) (v : ν) : ∀ {d : List (κ × ν)},
    Ascending d → Ascending (emplace k v d)
  | [], _ => List.pairwise_singleton _ _
  | e :: d, h => by
    obtain ⟨h1, h2⟩ := List.pairwise_cons.mp h
    unfold emplace
    split_ifs with hk hk'
    · exact ascending_cons v h hk
    · refine List.pairwise_cons.mpr ⟨fun x hx => ?_, ascending_emplace k v h2⟩
      rcases mem_emplace hx with rfl | hx
      · exact hk'
      · exact h1 x hx
    · exact h

/-- An entry above all others goes to the end. -/
theorem emplace_of_forall_lt {k : κ} {v : ν} : ∀ {d : List (κ × ν)},
    (∀ e ∈ d, e.1 < k) → emplace k v d = d ++ [(k, v)]
  | [], _ => rfl
  | e :: d, h => by
    have he := h e (by simp)
    rw [emplace, if_neg (not_lt.mpr he.le), if_pos he,
      emplace_of_forall_lt fun x hx => h x (by simp [hx])]
    rfl

/-- Inserting an entry adds at most its own weight. -/
theorem sum_emplace_le (w : κ × ν → ℕ) (k : κ) (v : ν) : ∀ d : List (κ × ν),
    ((emplace k v d).map w).sum ≤ w (k, v) + (d.map w).sum
  | [] => by simp [emplace]
  | e :: d => by
    have ih := sum_emplace_le w k v d
    unfold emplace
    split_ifs <;> simp only [List.map_cons, List.sum_cons] <;> omega

/-! ### Looking a key up -/

/-- The value of the first entry with the key. -/
def find (k : κ) : List (κ × ν) → Option ν
  | [] => none
  | e :: d => if e.1 = k then some e.2 else find k d

theorem mem_of_find {k : κ} {v : ν} : ∀ {d : List (κ × ν)}, find k d = some v → (k, v) ∈ d
  | [], h => by cases h
  | e :: d, h => by
    rw [find] at h
    split_ifs at h with he
    · cases h
      rw [← he]
      exact List.mem_cons_self
    · exact List.mem_cons_of_mem e (mem_of_find h)

theorem find_of_forall_ne {k : κ} : ∀ {d : List (κ × ν)}, (∀ e ∈ d, e.1 ≠ k) → find k d = none
  | [], _ => rfl
  | e :: d, h => by
    rw [find, if_neg (h e (by simp)), find_of_forall_ne fun x hx => h x (by simp [hx])]

/-- A key below the first one is not there. -/
theorem find_of_lt {k : κ} {e : κ × ν} {d : List (κ × ν)} (h : Ascending (e :: d)) (hk : k < e.1) :
    find k (e :: d) = none := by
  obtain ⟨h1, -⟩ := List.pairwise_cons.mp h
  refine find_of_forall_ne fun x hx => ?_
  rcases List.mem_cons.mp hx with rfl | hx
  · exact hk.ne'
  · exact (lt_trans hk (h1 x hx)).ne'

/-- **A map is determined by what is found in it.** -/
theorem ext_find : ∀ {a b : List (κ × ν)}, Ascending a → Ascending b →
    (∀ k, find k a = find k b) → a = b
  | [], [], _, _, _ => rfl
  | [], e :: b, _, _, h => by
    have he := h e.1
    rw [find, find, if_pos rfl] at he
    cases he
  | e :: a, [], _, _, h => by
    have he := h e.1
    rw [find, find, if_pos rfl] at he
    cases he
  | e :: a, e' :: b, ha, hb, h => by
    obtain ⟨ha1, ha2⟩ := List.pairwise_cons.mp ha
    obtain ⟨hb1, hb2⟩ := List.pairwise_cons.mp hb
    have hkey : e.1 = e'.1 := by
      rcases lt_trichotomy e.1 e'.1 with hlt | heq | hgt
      · have he := h e.1
        rw [find_of_lt hb hlt, find, if_pos rfl] at he
        cases he
      · exact heq
      · have he := h e'.1
        rw [find_of_lt ha hgt, find, if_pos rfl] at he
        cases he
    have hval : e.2 = e'.2 := by
      have he := h e.1
      rw [find, if_pos rfl, find, if_pos hkey.symm] at he
      exact Option.some.inj he
    have hrest : a = b := by
      refine ext_find ha2 hb2 fun k => ?_
      by_cases hk : e.1 = k
      · rw [find_of_forall_ne fun x hx => hk ▸ (ha1 x hx).ne',
          find_of_forall_ne fun x hx => hk ▸ hkey ▸ (hb1 x hx).ne']
      · have he := h k
        rwa [find, if_neg hk, find, if_neg (hkey ▸ hk)] at he
    rw [hrest, Prod.ext hkey hval]

theorem find_emplace {k : κ} {v : ν} (q : κ) : ∀ {d : List (κ × ν)}, Ascending d →
    find q (emplace k v d) = (find q d).or (if k = q then some v else none)
  | [], _ => rfl
  | e :: d, h => by
    obtain ⟨-, h2⟩ := List.pairwise_cons.mp h
    rw [emplace]
    by_cases hq : k = q
    · subst hq
      rw [if_pos rfl]
      split_ifs with hk hk'
      · rw [find, if_pos rfl, find_of_lt h hk]
        rfl
      · rw [find, find, if_neg hk'.ne, if_neg hk'.ne, find_emplace k h2, if_pos rfl]
      · rw [find, if_pos (le_antisymm (not_lt.mp hk) (not_lt.mp hk'))]
        rfl
    · rw [if_neg hq, Option.or_none]
      split_ifs with hk hk'
      · rw [find, if_neg hq]
      · rw [find, find, find_emplace q h2, if_neg hq, Option.or_none]
      · rfl

/-! ### The first entry wins -/

/-- Inserts an entry, or replaces the value if its key is present. -/
def assign (k : κ) (v : ν) : List (κ × ν) → List (κ × ν)
  | [] => [(k, v)]
  | e :: d =>
    if k < e.1 then (k, v) :: e :: d else if e.1 < k then e :: assign k v d else (k, v) :: d

/-- The map of the first entry of each key: an entry replaces those that follow it. -/
def firstWins : List (κ × ν) → List (κ × ν)
  | [] => []
  | e :: d => assign e.1 e.2 (firstWins d)

theorem mem_assign {k : κ} {v : ν} {x : κ × ν} : ∀ {d : List (κ × ν)},
    x ∈ assign k v d → x = (k, v) ∨ x ∈ d
  | [], h => Or.inl (by simpa [assign] using h)
  | e :: d, h => by
    rw [assign] at h
    split_ifs at h with h1 h2
    · exact List.mem_cons.mp h
    · rcases List.mem_cons.mp h with rfl | h
      · exact Or.inr (by simp)
      · rcases mem_assign h with h | h
        · exact Or.inl h
        · exact Or.inr (by simp [h])
    · rcases List.mem_cons.mp h with rfl | h
      · exact Or.inl rfl
      · exact Or.inr (by simp [h])

theorem ascending_assign (k : κ) (v : ν) : ∀ {d : List (κ × ν)},
    Ascending d → Ascending (assign k v d)
  | [], _ => List.pairwise_singleton _ _
  | e :: d, h => by
    obtain ⟨h1, h2⟩ := List.pairwise_cons.mp h
    rw [assign]
    split_ifs with hk hk'
    · exact ascending_cons v h hk
    · refine List.pairwise_cons.mpr ⟨fun x hx => ?_, ascending_assign k v h2⟩
      rcases mem_assign hx with rfl | hx
      · exact hk'
      · exact h1 x hx
    · refine List.pairwise_cons.mpr ⟨fun x hx => ?_, h2⟩
      exact lt_of_le_of_lt (not_lt.mp hk') (h1 x hx)

theorem find_assign {k : κ} {v : ν} (q : κ) : ∀ {d : List (κ × ν)}, Ascending d →
    find q (assign k v d) = if k = q then some v else find q d
  | [], _ => rfl
  | e :: d, h => by
    obtain ⟨-, h2⟩ := List.pairwise_cons.mp h
    rw [assign]
    by_cases hq : k = q
    · subst hq
      rw [if_pos rfl]
      split_ifs with hk hk'
      · rw [find, if_pos rfl]
      · rw [find, if_neg hk'.ne, find_assign k h2, if_pos rfl]
      · rw [find, if_pos rfl]
    · rw [if_neg hq]
      split_ifs with hk hk'
      · rw [find, if_neg hq]
      · rw [find, find, find_assign q h2, if_neg hq]
      · rw [find, if_neg hq, find, if_neg (le_antisymm (not_lt.mp hk') (not_lt.mp hk) ▸ hq)]

theorem ascending_firstWins : ∀ d : List (κ × ν), Ascending (firstWins d)
  | [] => List.Pairwise.nil
  | e :: d => ascending_assign e.1 e.2 (ascending_firstWins d)

/-- **The map has the first entry of each key.** -/
theorem find_firstWins (k : κ) : ∀ d : List (κ × ν), find k (firstWins d) = find k d
  | [] => rfl
  | e :: d => by
    rw [firstWins, find_assign k (ascending_firstWins d), find_firstWins k d, find]

theorem mem_firstWins {x : κ × ν} : ∀ {d : List (κ × ν)}, x ∈ firstWins d → x ∈ d
  | e :: d, h => by
    rcases mem_assign h with rfl | h
    · exact List.mem_cons_self
    · exact List.mem_cons_of_mem e (mem_firstWins h)

theorem find_foldl_emplace (q : κ) : ∀ (d : List (κ × ν)) {acc : List (κ × ν)}, Ascending acc →
    Ascending (d.foldl (fun m e => emplace e.1 e.2 m) acc) ∧
      find q (d.foldl (fun m e => emplace e.1 e.2 m) acc) = (find q acc).or (find q d)
  | [], acc, h => ⟨h, by rw [find, Option.or_none]; rfl⟩
  | e :: d, acc, h => by
    obtain ⟨h1, h2⟩ := find_foldl_emplace q d (ascending_emplace e.1 e.2 h)
    refine ⟨h1, ?_⟩
    rw [List.foldl_cons, h2, find_emplace q h, Option.or_assoc, find]
    congr 1
    split_ifs <;> rfl

/-- **Emplacing the entries one after the other, the first of each key wins.** -/
theorem foldl_emplace (d : List (κ × ν)) :
    d.foldl (fun m e => emplace e.1 e.2 m) [] = firstWins d := by
  have hnil : Ascending ([] : List (κ × ν)) := List.Pairwise.nil
  refine ext_find ?_ (ascending_firstWins d) fun k => ?_
  · cases d with
    | nil => exact hnil
    | cons e d => exact (find_foldl_emplace e.1 _ hnil).1
  · rw [(find_foldl_emplace k d hnil).2, find_firstWins]
    rfl

/-- Ascending entries are a map already. -/
theorem firstWins_of_ascending {d : List (κ × ν)} (h : Ascending d) : firstWins d = d :=
  ext_find (ascending_firstWins d) h fun k => find_firstWins k d

end CppTorrent.Lib.OrderedMap
