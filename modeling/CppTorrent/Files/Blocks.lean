import Mathlib.Tactic

/-! # Pieces and their blocks

A `Piece` is a row of blocks. `operator[]` takes the size of the first block for the size of all, so
it finds the byte at a position only if all blocks but the last have that size; `get?_cut` says that
a text cut into blocks of `most_request_size` bytes is indexed rightly. -/

namespace CppTorrent.Files.Blocks

/-- `bittorrent_constants::most_request_size`. -/
def mostRequestSize : ℕ := 16384

/-- `bittorrent::Block`. -/
structure Block where
  data : List UInt8
  begin_ : ℕ
  deriving DecidableEq

/-- `bittorrent::Piece`. -/
structure Piece where
  blocks : List Block
  currentBlocksNum : ℕ
  blockCount : ℕ
  index : ℕ
  deriving DecidableEq

/-- The constructor of `Piece`: `resize` makes blocks without data. -/
def newPiece (index blockCount : ℕ) : Piece := ⟨List.replicate blockCount ⟨[], 0⟩, 0, blockCount, index⟩

/-- The data of the blocks, one after the other. -/
def contents (blocks : List Block) : List UInt8 := blocks.flatMap Block.data

/-- `Piece::size`. -/
def size (blocks : List Block) : ℕ := (blocks.map fun b => b.data.length).sum

/-- `Piece::operator[]`; `none` where it has no defined value. -/
def get? (blocks : List Block) (i : ℕ) : Option UInt8 :=
  match blocks with
  | [] => none
  | first :: _ =>
    let midSize := first.data.length
    if midSize = 0 then none
    else blocks[i / midSize]?.bind fun b => b.data[i % midSize]?

theorem length_contents (blocks : List Block) : (contents blocks).length = size blocks := by
  rw [contents, List.length_flatMap, size]

/-- All blocks but the last have one size, which is not zero, and the last is not larger. -/
def Even (blocks : List Block) : Prop :=
  ∃ (mid : ℕ) (init : List Block) (last : Block), blocks = init ++ [last] ∧ 0 < mid ∧
    (∀ b ∈ init, b.data.length = mid) ∧ last.data.length ≤ mid ∧
    (init = [] → last.data.length = mid)

theorem length_contents_of_forall : ∀ (blocks : List Block) {mid : ℕ},
    (∀ b ∈ blocks, b.data.length = mid) → (contents blocks).length = blocks.length * mid
  | [], _, _ => by simp [contents]
  | b :: blocks, mid, h => by
    have ih := length_contents_of_forall blocks fun b' hb => h b' (by simp [hb])
    have hc : contents (b :: blocks) = b.data ++ contents blocks := rfl
    rw [hc, List.length_append, ih, h b (by simp), List.length_cons, Nat.add_mul, Nat.one_mul,
      Nat.add_comm]

/-- The byte at a position of a row of blocks of one size. -/
theorem getElem?_contents_of_forall : ∀ (blocks : List Block) {mid i : ℕ}, 0 < mid →
    (∀ b ∈ blocks, b.data.length = mid) →
    ∀ last : List UInt8, last.length ≤ mid → i < blocks.length * mid + last.length →
    (contents blocks ++ last)[i]? =
      if i / mid < blocks.length then blocks[i / mid]?.bind fun b => b.data[i % mid]?
      else last[i % mid]?
  | [], mid, i, hmid, _, last, hl, hi => by
    simp only [List.length_nil, Nat.zero_mul, Nat.zero_add] at hi
    simp only [contents, List.flatMap_nil, List.nil_append, List.length_nil, Nat.not_lt_zero,
      if_false]
    rcases Nat.lt_or_ge i mid with him | him
    · rw [Nat.mod_eq_of_lt him]
    · omega
  | b :: blocks, mid, i, hmid, h, last, hl, hi => by
    have hb := h b (by simp)
    have hc : contents (b :: blocks) ++ last = b.data ++ (contents blocks ++ last) := by
      rw [← List.append_assoc]; rfl
    rw [hc]
    rcases Nat.lt_or_ge i mid with him | him
    · rw [List.getElem?_append_left (by omega), Nat.div_eq_of_lt him, Nat.mod_eq_of_lt him]
      simp
    · have ih := getElem?_contents_of_forall blocks (i := i - mid) hmid
        (fun b' hb' => h b' (by simp [hb'])) last hl (by
          rw [List.length_cons, Nat.add_mul, Nat.one_mul] at hi
          omega)
      have hdiv : i / mid = (i - mid) / mid + 1 := by
        rw [Nat.div_eq_sub_div hmid him]
      rw [List.getElem?_append_right (by omega), hb, ih, hdiv, Nat.mod_eq_sub_mod him,
        List.length_cons, List.getElem?_cons_succ]
      simp only [Nat.add_lt_add_iff_right]

/-- **`operator[]` finds the bytes of an even row of blocks.** -/
theorem get?_of_even {blocks : List Block} (h : Even blocks) {i : ℕ} (hi : i < size blocks) :
    get? blocks i = (contents blocks)[i]? := by
  obtain ⟨mid, init, last, rfl, hmid, hinit, hlast, hone⟩ := h
  have hc : contents (init ++ [last]) = contents init ++ last.data := by simp [contents]
  rw [← length_contents, hc, List.length_append, length_contents_of_forall init hinit] at hi
  have hfirst : ∃ first rest, init ++ [last] = first :: rest ∧ first.data.length = mid := by
    cases init with
    | nil => exact ⟨last, [], rfl, hone rfl⟩
    | cons b init => exact ⟨b, init ++ [last], rfl, hinit b (by simp)⟩
  obtain ⟨first, rest, hcons, hmf⟩ := hfirst
  have hget : get? (init ++ [last]) i =
      (init ++ [last])[i / mid]?.bind fun b => b.data[i % mid]? := by
    rw [hcons]
    simp only [get?, hmf, if_neg hmid.ne']
  rw [hget, hc, getElem?_contents_of_forall init hmid hinit last.data hlast hi]
  split_ifs with hlt
  · rw [List.getElem?_append_left hlt]
  · have heq : i / mid = init.length := by
      refine le_antisymm ?_ (not_lt.mp hlt)
      refine Nat.lt_succ_iff.mp ((Nat.div_lt_iff_lt_mul hmid).mpr ?_)
      rw [Nat.succ_mul]
      omega
    rw [heq]
    simp

/-! ### Cutting a text into blocks -/

/-- The `k`-th block of a text. -/
def blockAt (text : List UInt8) (k : ℕ) : Block :=
  ⟨(text.drop (k * mostRequestSize)).take mostRequestSize, k * mostRequestSize⟩

/-- A text cut into blocks of `most_request_size` bytes. -/
def cut (text : List UInt8) : List Block :=
  (List.range ((text.length + mostRequestSize - 1) / mostRequestSize)).map (blockAt text)

/-- The first `k` blocks hold the first bytes of the text. -/
theorem contents_cut_aux (text : List UInt8) : ∀ k : ℕ,
    contents ((List.range k).map (blockAt text)) = text.take (k * mostRequestSize)
  | 0 => by simp [contents]
  | k + 1 => by
    have ih := contents_cut_aux text k
    unfold contents at ih ⊢
    rw [List.range_succ, List.map_append, List.flatMap_append, ih, Nat.add_mul, Nat.one_mul,
      List.take_add]
    simp [blockAt]

theorem contents_cut (text : List UInt8) : contents (cut text) = text := by
  rw [cut, contents_cut_aux]
  refine List.take_of_length_le ?_
  have := Nat.div_add_mod (text.length + mostRequestSize - 1) mostRequestSize
  have := Nat.mod_lt (text.length + mostRequestSize - 1) (show 0 < mostRequestSize by decide)
  unfold mostRequestSize at *
  omega

theorem size_cut (text : List UInt8) : size (cut text) = text.length := by
  rw [← length_contents, contents_cut]

theorem even_cut {text : List UInt8} (h : text ≠ []) : Even (cut text) := by
  have hpos := List.length_pos_iff.mpr h
  obtain ⟨k, hk⟩ : ∃ k, (text.length + mostRequestSize - 1) / mostRequestSize = k + 1 := by
    refine ⟨(text.length - 1) / mostRequestSize, ?_⟩
    unfold mostRequestSize
    omega
  have hlen : k * mostRequestSize < text.length ∧ text.length ≤ (k + 1) * mostRequestSize := by
    unfold mostRequestSize at *
    omega
  have hcut : cut text = (List.range k).map (blockAt text) ++ [blockAt text k] := by
    rw [cut, hk, List.range_succ, List.map_append]
    rfl
  refine ⟨min mostRequestSize text.length, _, _, hcut, by simp [hpos, mostRequestSize],
    fun b hb => ?_, ?_, fun hnil => ?_⟩
  · obtain ⟨j, hj, rfl⟩ := List.mem_map.mp hb
    have hj := List.mem_range.mp hj
    simp only [blockAt, List.length_take, List.length_drop]
    unfold mostRequestSize at *
    omega
  · simp only [blockAt, List.length_take, List.length_drop]
    omega
  · have hk0 : k = 0 := by simpa using hnil
    subst hk0
    simp [blockAt]

/-- **A text cut into blocks is indexed rightly.** -/
theorem get?_cut {text : List UInt8} {i : ℕ} (hi : i < text.length) :
    get? (cut text) i = text[i]? := by
  have hne : text ≠ [] := List.ne_nil_of_length_pos (by omega)
  rw [get?_of_even (even_cut hne) (by rw [size_cut]; exact hi), contents_cut]

/-- A loop that reads a range of positions. -/
theorem mapM_get? {blocks : List Block} {text : List UInt8}
    (h : ∀ i < text.length, get? blocks i = text[i]?) : ∀ {a c : ℕ}, a + c ≤ text.length →
    (List.range' a c).mapM (get? blocks) = some ((text.drop a).take c)
  | _, 0, _ => by simp
  | a, c + 1, hac => by
    have hlt : a < text.length := by omega
    have ih := mapM_get? h (a := a + 1) (c := c) (by omega)
    rw [List.range'_succ, List.mapM_cons, h a hlt, ih, List.drop_eq_getElem_cons hlt,
      List.getElem?_eq_getElem hlt, List.take_succ_cons]
    rfl

end CppTorrent.Files.Blocks
