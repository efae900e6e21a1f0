import Mathlib.Data.List.TakeWhile
import Mathlib.Tactic

/-! # Texts with separators

A text is cut at the first separator (`cut`) or at all of them (`List.splitOn`). A record is a row of
named fields, with one separator between the fields and another one between a name and its value. It is
read back (`fields_record`) if no field has the outer separator in it and no name the inner one: a value
may have the inner one. -/

namespace CppTorrent.Lib.Delimited

variable {α : Type} [DecidableEq α] {sep assign amp : α}

/-- What stands in front of the first separator, and what stands behind it. -/
def cut (sep : α) (text : List α) : List α × List α :=
  (text.takeWhile fun a => a ≠ sep, (text.dropWhile fun a => a ≠ sep).drop 1)

/-- The text of a field. -/
def assignment (assign : α) (field : List α × List α) : List α := field.1 ++ assign :: field.2

/-- The text of a record. -/
def record (assign amp : α) (fs : List (List α × List α)) : List α :=
  [amp].intercalate (fs.map (assignment assign))

/-- The fields of a record. -/
def fields (assign amp : α) (text : List α) : List (List α × List α) :=
  (text.splitOn amp).map (cut assign)

theorem cut_of_notMem {text : List α} (h : sep ∉ text) : cut sep text = (text, []) := by
  have hall : ∀ a ∈ text, decide (a ≠ sep) = true := fun a ha => by
    simpa using ne_of_mem_of_not_mem ha h
  unfold cut
  rw [List.takeWhile_eq_self_iff.mpr hall, List.dropWhile_eq_nil_iff.mpr hall, List.drop_nil]

theorem cut_append {front : List α} (h : sep ∉ front) (back : List α) :
    cut sep (front ++ sep :: back) = (front, back) := by
  have hall : ∀ a ∈ front, decide (a ≠ sep) = true := fun a ha => by
    simpa using ne_of_mem_of_not_mem ha h
  unfold cut
  rw [List.takeWhile_append_of_pos hall, List.dropWhile_append_of_pos hall,
    List.takeWhile_cons_of_neg (by simp), List.dropWhile_cons_of_neg (by simp), List.append_nil]
  rfl

omit [DecidableEq α] in
/-- What no field has in it and is not the separator, the record does not have in it. -/
theorem notMem_record {a : α} (hamp : a ≠ amp) : ∀ {fs : List (List α × List α)},
    (∀ f ∈ fs, a ∉ assignment assign f) → a ∉ record assign amp fs
  | [], _ => List.not_mem_nil
  | [f], h => by
    have hrecord : record assign amp [f] = assignment assign f := List.intercalate_singleton
    rw [hrecord]
    exact h f (List.mem_singleton_self f)
  | f :: g :: fs, h => by
    obtain ⟨hf, hfs⟩ := List.forall_mem_cons.mp h
    have ih := notMem_record hamp hfs
    have hrecord : record assign amp (f :: g :: fs) =
        assignment assign f ++ [amp] ++ record assign amp (g :: fs) := List.intercalate_cons_cons
    rw [hrecord, List.mem_append, List.mem_append, List.mem_singleton]
    rintro ((hmem | heq) | hmem)
    · exact hf hmem
    · exact hamp heq
    · exact ih hmem

/-- **A record is read back.** -/
theorem fields_record {fs : List (List α × List α)} (hne : fs ≠ [])
    (hamp : ∀ f ∈ fs, amp ∉ assignment assign f) (hname : ∀ f ∈ fs, assign ∉ f.1) :
    fields assign amp (record assign amp fs) = fs := by
  have hsplit : (record assign amp fs).splitOn amp = fs.map (assignment assign) :=
    List.splitOn_intercalate amp (List.forall_mem_map.mpr hamp) (by simpa using hne)
  unfold fields
  rw [hsplit, List.map_map]
  refine (List.map_congr_left fun f hf => ?_).trans (List.map_id fs)
  exact cut_append (hname f hf) f.2

end CppTorrent.Lib.Delimited
