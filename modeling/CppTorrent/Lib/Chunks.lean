import Mathlib.Tactic

/-! # Reading from a stream that arrives in chunks

A stream arrives in chunks and is collected in a buffer. `readUntil` takes chunks until the buffer has
a delimiter in it: it may hold bytes behind the delimiter then, and how many depends on the chunks.
`readToEof` takes all of them.

`readUntil_spec` says where a text that ends with its first delimiter is found: at the front of the
buffer, whatever the chunks are. There is nothing behind it exactly if a chunk ends where the text does
(`lookAhead_nil_iff`). -/

namespace CppTorrent.Lib.Chunks

variable {α : Type} [DecidableEq α] (delim : List α)

/-- Where the first delimiter of a text ends. -/
def endOf : List α → Option ℕ
  | [] => if delim = [] then some 0 else none
  | a :: text => if delim <+: a :: text then some delim.length else (endOf text).map (· + 1)

/-- Takes chunks until the delimiter is there: the length up to its end, the buffer, and the chunks to
come. -/
def readUntil : List α → List (List α) → Option (ℕ × List α × List (List α))
  | buf, [] => (endOf delim buf).map fun xfr => (xfr, buf, [])
  | buf, chunk :: chunks =>
    match endOf delim buf with
    | some xfr => some (xfr, buf, chunk :: chunks)
    | none => readUntil (buf ++ chunk) chunks

/-- Takes all chunks. -/
def readToEof (buf : List α) (chunks : List (List α)) : List α := buf ++ chunks.flatten

variable {delim}

/-! ### The first delimiter -/

theorem endOf_bounds : ∀ {text : List α} {k : ℕ}, endOf delim text = some k →
    delim.length ≤ k ∧ k ≤ text.length
  | [], k, h => by
    unfold endOf at h
    split_ifs at h with hd
    cases h
    simp [hd]
  | a :: text, k, h => by
    unfold endOf at h
    split_ifs at h with hpre
    · cases h
      exact ⟨le_rfl, hpre.length_le⟩
    · obtain ⟨k', hk', rfl⟩ := Option.map_eq_some_iff.mp h
      obtain ⟨h1, h2⟩ := endOf_bounds hk'
      exact ⟨by omega, by rw [List.length_cons]; omega⟩

/-- The delimiter stands in front of its end. -/
theorem suffix_of_endOf : ∀ {text : List α} {k : ℕ}, endOf delim text = some k →
    delim <:+ text.take k
  | [], k, h => by
    unfold endOf at h
    split_ifs at h with hd
    rw [hd]
    exact List.nil_suffix
  | a :: text, k, h => by
    unfold endOf at h
    split_ifs at h with hpre
    · cases h
      rw [← List.prefix_iff_eq_take.mp hpre]
    · obtain ⟨k', hk', rfl⟩ := Option.map_eq_some_iff.mp h
      rw [List.take_succ_cons]
      exact (suffix_of_endOf hk').trans (List.suffix_cons a _)

/-- What follows a delimiter does not move it. -/
theorem endOf_append : ∀ {text : List α} {k : ℕ}, endOf delim text = some k → ∀ more : List α,
    endOf delim (text ++ more) = some k
  | [], k, h, more => by
    unfold endOf at h
    split_ifs at h with hd
    cases h
    cases more with
    | nil => simp [endOf, hd]
    | cons a more => simp [endOf, hd]
  | a :: text, k, h, more => by
    unfold endOf at h
    rw [List.cons_append, endOf]
    split_ifs at h with hpre
    · cases h
      have hlong : delim <+: a :: (text ++ more) := hpre.trans (List.prefix_append (a :: text) more)
      rw [if_pos hlong]
    · obtain ⟨k', hk', rfl⟩ := Option.map_eq_some_iff.mp h
      obtain ⟨hle, hle'⟩ := endOf_bounds hk'
      -- the delimiter fits into the text, so it is at its front or not at all
      have hnot : ¬ delim <+: a :: (text ++ more) := by
        intro hlong
        rw [← List.cons_append] at hlong
        have hshort := List.prefix_of_prefix_length_le hlong (List.prefix_append (a :: text) more)
          (by rw [List.length_cons]; omega)
        exact hpre hshort
      rw [if_neg hnot, endOf_append hk' more, Option.map_some]

/-! ### Reading up to a delimiter -/

section Read

variable {text more : List α}

/-- **A text that ends with its first delimiter is read to the front of the buffer**: it is there after
some number of chunks, and not before. -/
theorem readUntil_spec (htext : endOf delim text = some text.length) :
    ∀ (chunks : List (List α)) (buf : List α), buf ++ chunks.flatten = text ++ more →
      ∃ j ahead, readUntil delim buf chunks = some (text.length, text ++ ahead, chunks.drop j) ∧
        text ++ ahead = buf ++ (chunks.take j).flatten ∧
        ∀ i < j, ¬ text <+: buf ++ (chunks.take i).flatten := by
  -- a buffer has the delimiter in it exactly if the text is at its front
  have hfound : ∀ {buf rest : List α} {k : ℕ}, buf ++ rest = text ++ more → endOf delim buf = some k →
      k = text.length ∧ text <+: buf := by
    intro buf rest k hsum hk
    have hlong := endOf_append hk rest
    rw [hsum, endOf_append htext more] at hlong
    obtain rfl := Option.some.inj hlong
    refine ⟨rfl, ?_⟩
    exact List.prefix_of_prefix_length_le (hsum ▸ List.prefix_append text more)
      (List.prefix_append buf rest) (endOf_bounds hk).2
  intro chunks
  induction chunks with
  | nil =>
    intro buf hsum
    rw [List.flatten_nil, List.append_nil] at hsum
    have hend : endOf delim buf = some text.length := hsum ▸ endOf_append htext more
    refine ⟨0, more, ?_, ?_, by omega⟩
    · rw [readUntil, hend, ← hsum]
      rfl
    · rw [hsum]
      simp
  | cons chunk chunks ih =>
    intro buf hsum
    rcases hend : endOf delim buf with _ | k
    · have hnext : (buf ++ chunk) ++ chunks.flatten = text ++ more := by
        rw [← hsum, List.flatten_cons, List.append_assoc]
      obtain ⟨j, ahead, hread, hahead, hbefore⟩ := ih (buf ++ chunk) hnext
      refine ⟨j + 1, ahead, ?_, ?_, fun i hi hpre => ?_⟩
      · rw [readUntil, hend]
        exact hread
      · rw [hahead, List.take_succ_cons, List.flatten_cons, List.append_assoc]
      · rcases i with _ | i
        · rw [List.take_zero, List.flatten_nil, List.append_nil] at hpre
          obtain ⟨rest, rfl⟩ := hpre
          rw [endOf_append htext rest] at hend
          cases hend
        · rw [List.take_succ_cons, List.flatten_cons, ← List.append_assoc] at hpre
          exact hbefore i (by omega) hpre
    · obtain ⟨rfl, ahead, rfl⟩ := hfound hsum hend
      refine ⟨0, ahead, ?_, by simp, by omega⟩
      rw [readUntil, hend]
      rfl

omit [DecidableEq α] in
/-- **Nothing is behind the text exactly if a chunk ends with it.** -/
theorem lookAhead_nil_iff {chunks : List (List α)} {buf ahead : List α} {j : ℕ}
    (hahead : text ++ ahead = buf ++ (chunks.take j).flatten)
    (hbefore : ∀ i < j, ¬ text <+: buf ++ (chunks.take i).flatten) :
    ahead = [] ↔ ∃ i, buf ++ (chunks.take i).flatten = text := by
  constructor
  · rintro rfl
    rw [List.append_nil] at hahead
    exact ⟨j, hahead.symm⟩
  · rintro ⟨i, hi⟩
    have hij : j ≤ i := by
      by_contra hlt
      exact hbefore i (by omega) (hi ▸ List.prefix_rfl)
    -- the first `j` chunks are among the first `i`
    have hsplit : (chunks.take i).flatten = (chunks.take j).flatten ++
        ((chunks.drop j).take (i - j)).flatten := by
      rw [← List.flatten_append, ← List.take_add, Nat.add_sub_cancel' hij]
    rw [hsplit, ← List.append_assoc, ← hahead, List.append_assoc] at hi
    have hlen := congrArg List.length hi
    rw [List.length_append, List.length_append] at hlen
    exact List.length_eq_zero_iff.mp (by omega)

end Read

end CppTorrent.Lib.Chunks
