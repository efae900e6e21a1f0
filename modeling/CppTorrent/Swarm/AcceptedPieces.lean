import CppTorrent.Lib.Grid
import CppTorrent.Swarm.Answers

/-! # Pieces with blocks of any size

A remote peer chooses the sizes of the blocks it sends, and `OnPieceBlock` only looks that none is too
large. A piece whose slots are all filled goes to the write job, which sorts its blocks, hashes them one
after the other and, if the hash is right, writes the bytes that `operator[]` finds. `operator[]` takes
the size of the first block for the size of all. So it finds the bytes that were hashed exactly if all
blocks but the last have that size and the last is not larger (`indexable_iff`): every position is inside
its block only then, which is a count (`Lib.Grid`). -/

namespace CppTorrent.Swarm.AcceptedPieces

open CppTorrent.Files.Blocks CppTorrent.Files.Storage CppTorrent.Lib.ByteFile CppTorrent.Lib.Grid
open CppTorrent.Swarm.Answers
open CppTorrent.Swarm.Model hiding answers

/-- A piece of size `s` that can be handed to `DownloadPiece`: each slot holds a block that begins in
it, and the blocks have the size of the piece. -/
structure Handed (s : ℕ) (blocks : List Block) : Prop where
  count : blocks.length = blockCountOf s
  slot : ∀ k b, blocks[k]? = some b → b.begin_ / mostRequestSize = k
  small : ∀ b ∈ blocks, b.data.length ≤ mostRequestSize
  total : size blocks = s

/-- `operator[]` divides by a size that is not zero, stays inside the blocks and finds the bytes of the
blocks one after the other. -/
def Indexable (blocks : List Block) : Prop :=
  ∀ i < size blocks, ∃ byte, get? blocks i = some byte ∧ (contents blocks)[i]? = some byte

/-- `WritePieceToFile` writes the bytes of the blocks one after the other, to every part of a file. -/
def WritesContents (blocks : List Block) : Prop :=
  ∀ (disk : Disk) (path p pb fb n : ℕ) (file : List UInt8), disk path = some file →
    pb ≤ size blocks → size blocks < 2 ^ 63 → n < 2 ^ 63 →
    writePart blocks disk ⟨path, p, pb, fb, n⟩ = .ok (Function.update disk path
      (some (writeAt fb (((contents blocks).drop pb).take (min (size blocks - pb) n)) file)))

variable {s : ℕ} {blocks : List Block}

/-! ### The pieces that are handed over -/

/-- A slot holds the last block that was put into it. -/
theorem slot_assemble {count k : ℕ} : ∀ (handled : List Answer) (piece : Piece),
    piece.blocks.length = count → k < count →
    (piece.blocks[k]?.map (fun b => b.begin_ / mostRequestSize) = some k ∨
      ∃ a ∈ handled, a.begin_ / mostRequestSize = k) →
    (assemble piece handled).blocks[k]?.map (fun b => b.begin_ / mostRequestSize) = some k
  | [], piece, _, _, hk => by
    rcases hk with hk | ⟨a, ha, -⟩
    · exact hk
    · cases ha
  | a :: handled, piece, hlen, hlt, hk => by
    refine slot_assemble handled (stored piece a.begin_ a.data)
      ((List.length_set ..).trans hlen) hlt ?_
    change (piece.blocks.set (a.begin_ / mostRequestSize) ⟨a.data, a.begin_⟩)[k]?.map _ = _ ∨ _
    by_cases ha : a.begin_ / mostRequestSize = k
    · left
      rw [ha, List.getElem?_set_self (by omega)]
      exact congrArg some ha
    · rw [List.getElem?_set_ne ha]
      rcases hk with hk | ⟨b, hb, hbk⟩
      · exact Or.inl hk
      · rcases List.mem_cons.mp hb with rfl | hb
        · exact absurd hbk ha
        · exact Or.inr ⟨b, hb, hbk⟩

theorem small_assemble : ∀ (handled : List Answer) (piece : Piece),
    (∀ b ∈ piece.blocks, b.data.length ≤ mostRequestSize) →
    (∀ a ∈ handled, a.data.length ≤ mostRequestSize) →
    ∀ b ∈ (assemble piece handled).blocks, b.data.length ≤ mostRequestSize
  | [], _, hpiece, _ => hpiece
  | a :: handled, piece, hpiece, hall => by
    refine small_assemble handled (stored piece a.begin_ a.data) (fun b hb => ?_) fun c hc =>
      hall c (List.mem_cons_of_mem a hc)
    rcases List.mem_or_eq_of_mem_set hb with hb | rfl
    · exact hpiece b hb
    · exact hall a List.mem_cons_self

/-- **Answers for all slots, in any order and with repetitions, make a piece that can be handed over**,
if they have its size in the end. -/
theorem handed_assemble {i : ℕ} {handled : List Answer}
    (hall : ∀ a ∈ handled, a.data.length ≤ mostRequestSize)
    (hslots : ∀ k < blockCountOf s, ∃ a ∈ handled, a.begin_ / mostRequestSize = k)
    (htotal : size (assemble (newPiece i (blockCountOf s)) handled).blocks = s) :
    Handed s (assemble (newPiece i (blockCountOf s)) handled).blocks := by
  have hnew : (newPiece i (blockCountOf s)).blocks.length = blockCountOf s := List.length_replicate
  have hshape := (assemble_spec (newPiece i (blockCountOf s)) handled).2.2.1
  refine ⟨hshape.trans hnew, fun k b hb => ?_, ?_, htotal⟩
  · have hk : k < blockCountOf s := by
      have hlt := (List.getElem?_eq_some_iff.mp hb).1
      omega
    have hslot := slot_assemble handled (newPiece i (blockCountOf s)) hnew hk (Or.inr (hslots k hk))
    rw [hb] at hslot
    exact Option.some.inj hslot
  · refine small_assemble handled (newPiece i (blockCountOf s)) (fun b hb => ?_) hall
    rw [(List.mem_replicate.mp hb).2]
    exact Nat.zero_le _

/-- **The sort of the write job leaves them in their order**: they begin in different slots. -/
theorem Handed.eq_of_sorts (h : Handed s blocks) {sorted : List Block}
    (hsort : sorts blocks sorted = true) : sorted = blocks := by
  unfold sorts at hsort
  rw [Bool.and_eq_true, decide_eq_true_eq, decide_eq_true_eq] at hsort
  obtain ⟨hperm, hsorted⟩ := hsort
  have hblocks : blocks.Pairwise fun a b => a.begin_ < b.begin_ := by
    refine List.pairwise_iff_getElem.mpr fun k l hk hl hkl => ?_
    have hslotk := h.slot k _ (List.getElem?_eq_getElem hk)
    have hslotl := h.slot l _ (List.getElem?_eq_getElem hl)
    exact Nat.lt_of_div_lt_div (hslotk.trans_lt (hkl.trans_eq hslotl.symm))
  refine hperm.eq_of_pairwise (fun a b ha hb hab hba => ?_) hsorted (hblocks.imp Nat.le_of_lt)
  -- blocks that begin at one position stand in one slot
  obtain ⟨k, hk, rfl⟩ := List.getElem_of_mem (hperm.mem_iff.mp ha)
  obtain ⟨l, hl, rfl⟩ := List.getElem_of_mem hb
  have hslotk := h.slot k _ (List.getElem?_eq_getElem hk)
  have hslotl := h.slot l _ (List.getElem?_eq_getElem hl)
  have hbegin : blocks[k].begin_ = blocks[l].begin_ := Nat.le_antisymm hab hba
  obtain rfl : k = l := by rw [← hslotk, hbegin, hslotl]
  rfl

/-! ### Indexing -/

theorem indexable_of_even (h : Even blocks) : Indexable blocks := by
  intro i hi
  have hlt : i < (contents blocks).length := by rwa [length_contents]
  exact ⟨(contents blocks)[i], (get?_of_even h hi).trans (List.getElem?_eq_getElem hlt),
    List.getElem?_eq_getElem hlt⟩

/-- What can be indexed is inside a grid of the width of the first block. -/
theorem inside_of_indexable {first : Block} {rest : List Block} (h : Indexable (first :: rest)) :
    Inside first.data.length (size (first :: rest))
      ((first :: rest).map fun b => b.data.length) := by
  intro i hi
  obtain ⟨byte, hbyte, -⟩ := h i hi
  unfold get? at hbyte
  dsimp only at hbyte
  split_ifs at hbyte
  obtain ⟨b, hb, hdata⟩ := Option.bind_eq_some_iff.mp hbyte
  refine ⟨b.data.length, ?_, (List.getElem?_eq_some_iff.mp hdata).1⟩
  rw [List.getElem?_map, hb]
  rfl

/-- **A piece that can be indexed has even blocks.** -/
theorem Handed.even (h : Handed s blocks) (hs : 0 < s) (hindex : Indexable blocks) : Even blocks := by
  obtain ⟨hcount, -, hsmall, htotal⟩ := h
  unfold blockCountOf at hcount
  rcases blocks with _ | ⟨first, rest⟩
  · have hzero : size [] = 0 := rfl
    omega
  · obtain ⟨byte, hbyte, -⟩ := hindex 0 (by omega)
    have hmid : 0 < first.data.length := by
      unfold get? at hbyte
      dsimp only at hbyte
      split_ifs at hbyte
      omega
    have hbound : first.data.length ≤ mostRequestSize := hsmall first List.mem_cons_self
    set sizes := (first :: rest).map fun b => b.data.length with hsizes
    have hstacked : Stacked first.data.length sizes :=
      stacked_of_inside hmid (inside_of_indexable hindex)
    have hfew : (sizes.length - 1) * mostRequestSize < sizes.sum := by
      have hsum : sizes.sum = s := htotal
      rw [hsum, hsizes, List.length_map, hcount]
      unfold mostRequestSize
      omega
    -- the blocks before the last one, and the last one
    have hsplit := List.dropLast_append_getLast (l := first :: rest) (List.cons_ne_nil _ _)
    refine ⟨first.data.length, _, _, hsplit.symm, hmid, fun b hb => ?_, ?_, fun hnil => ?_⟩
    · refine hstacked.eq_of_mem_dropLast hbound hfew _ ?_
      rw [hsizes, ← List.map_dropLast]
      exact List.mem_map_of_mem hb
    · exact hstacked.le _ (List.mem_map_of_mem (List.getLast_mem _))
    · rcases rest with _ | ⟨second, rest⟩
      · rfl
      · cases hnil

/-- What can be indexed is written as it is hashed. -/
theorem writesContents_of_indexable (h : Indexable blocks) : WritesContents blocks := by
  intro disk path p pb fb n file hfile hpb hsize hn
  rw [← length_contents] at hpb hsize ⊢
  refine writePart_of_get? p fb (fun i hi => ?_) (length_contents blocks).symm hsize hn hpb hfile
  obtain ⟨byte, hget, hcontents⟩ := h i (length_contents blocks ▸ hi)
  rw [hget, hcontents]

/-- **A piece can be indexed, and is written as it was hashed, exactly if** all its blocks but the last
have the same size and the last is not larger, or it is empty. -/
theorem indexable_iff (s : ℕ) (blocks : List Block) (h : Handed s blocks) (sorted : List Block)
    (hsort : sorts blocks sorted = true) :
    (Indexable sorted ∧ WritesContents sorted) ↔ (s = 0 ∨ Even blocks) := by
  rw [h.eq_of_sorts hsort]
  constructor
  · rintro ⟨hindex, -⟩
    rcases Nat.eq_zero_or_pos s with hs | hs
    · exact Or.inl hs
    · exact Or.inr (h.even hs hindex)
  · intro hcond
    have hindex : Indexable blocks := by
      rcases hcond with hs | heven
      · intro i hi
        rw [h.total] at hi
        omega
      · exact indexable_of_even heven
    exact ⟨hindex, writesContents_of_indexable hindex⟩

/-- Two blocks of a piece of 16385 bytes, of which the second may arrive first. -/
theorem handed_pair {d d' : List UInt8} (hd : d.length ≤ mostRequestSize)
    (hd' : d'.length ≤ mostRequestSize) (hsize : d.length + d'.length = 16385) :
    Handed 16385 [⟨d, 0⟩, ⟨d', mostRequestSize⟩] := by
  have hcount : blockCountOf 16385 = 2 := rfl
  have hassemble : (assemble (newPiece 0 2) [⟨0, mostRequestSize, d'⟩, ⟨0, 0, d⟩]).blocks =
      [⟨d, 0⟩, ⟨d', mostRequestSize⟩] := by
    simp [assemble, stored, newPiece, mostRequestSize]
  rw [← hassemble, ← hcount]
  refine handed_assemble (fun a ha => ?_) (fun k hk => ?_) ?_
  · rcases List.mem_cons.mp ha with rfl | ha
    · exact hd'
    · rw [List.mem_singleton.mp ha]
      exact hd
  · rw [hcount] at hk
    interval_cases k
    · exact ⟨⟨0, 0, d⟩, by simp, Nat.zero_div _⟩
    · exact ⟨⟨0, mostRequestSize, d'⟩, by simp, Nat.div_self (show 0 < mostRequestSize by decide)⟩
  · rw [hcount, hassemble]
    simpa [size] using hsize

theorem sorts_pair (d d' : List UInt8) :
    sorts [⟨d, 0⟩, ⟨d', mostRequestSize⟩] [⟨d, 0⟩, ⟨d', mostRequestSize⟩] = true := by
  unfold sorts
  rw [Bool.and_eq_true, decide_eq_true_eq, decide_eq_true_eq]
  exact ⟨List.Perm.refl _, List.pairwise_pair.mpr (Nat.zero_le _)⟩

/-- A full block and one of a single byte. -/
def fullFirst : List Block := [⟨List.replicate mostRequestSize 1, 0⟩, ⟨[2], mostRequestSize⟩]

theorem indexable_fullFirst : Indexable fullFirst ∧ WritesContents fullFirst := by
  have hhanded : Handed 16385 fullFirst :=
    handed_pair List.length_replicate.le (by decide) (by rw [List.length_replicate]; rfl)
  refine (indexable_iff 16385 fullFirst hhanded fullFirst (sorts_pair _ _)).mpr (Or.inr ?_)
  refine ⟨mostRequestSize, [⟨List.replicate mostRequestSize 1, 0⟩], ⟨[2], mostRequestSize⟩, rfl, by decide,
    fun b hb => ?_, by decide, nofun⟩
  rw [List.mem_singleton.mp hb]
  exact List.length_replicate

/-- A short block before a full one. -/
def shortFirst : List Block := [⟨[1], 0⟩, ⟨List.replicate mostRequestSize 2, mostRequestSize⟩]

/-- A piece of 16385 bytes, of which the first block brings one: position 2 is looked for in a third
block. -/
theorem not_indexable_shortFirst :
    Handed 16385 shortFirst ∧ sorts shortFirst shortFirst = true ∧ get? shortFirst 2 = none ∧
      ¬ (Indexable shortFirst ∧ WritesContents shortFirst) := by
  have hhanded : Handed 16385 shortFirst :=
    handed_pair (by decide) List.length_replicate.le (by rw [List.length_replicate]; rfl)
  have hnone : get? shortFirst 2 = none := rfl
  refine ⟨hhanded, sorts_pair _ _, hnone, ?_⟩
  rintro ⟨hindex, -⟩
  obtain ⟨byte, hbyte, -⟩ := hindex 2 (by rw [hhanded.total]; decide)
  rw [hnone] at hbyte
  cases hbyte

end CppTorrent.Swarm.AcceptedPieces
