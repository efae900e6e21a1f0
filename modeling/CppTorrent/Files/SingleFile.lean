import CppTorrent.Files.Storage

/-! # Single-file torrents

In a single-file torrent every piece has one entry, at its own place in the file and with the piece
length for its size. A piece whose blocks are even and not longer than that is written to its place
in the file (`writePieceToFile_single`). -/

namespace CppTorrent.Files.SingleFile

open CppTorrent.Files.Blocks CppTorrent.Files.Storage CppTorrent.Lib.ByteFile

/-- The entries of the pieces with a given index. -/
def entriesOf (p : ℕ) (entries : List FileInfo) : List FileInfo :=
  entries.filter fun file => file.pieceIndex = p

theorem toLong_natCast {n : ℕ} (h : n < 2 ^ 63) : toLong (n : ℤ) = n := by
  unfold toLong
  rw [Int.bmod_eq_of_le] <;> omega

theorem pieceIndex_singleLoop (pieceSize : ℕ) : ∀ (k i : ℕ) (fileBeg : ℤ),
    ∀ e ∈ (singleLoop pieceSize k i fileBeg).1, i ≤ e.pieceIndex ∧ e.pieceIndex < i + k
  | 0, i, fileBeg, e, he => by simp [singleLoop] at he
  | k + 1, i, fileBeg, e, he => by
    rcases List.mem_cons.mp he with rfl | he
    · exact ⟨le_rfl, by simp⟩
    · have ih := pieceIndex_singleLoop pieceSize k (i + 1) _ e he
      omega

/-- The entry of a piece is at the place of the piece, as long as that is a 64-bit number. -/
theorem entriesOf_singleLoop (pieceSize : ℕ) : ∀ (k i b p : ℕ), i ≤ p → p < i + k →
    b + (p - i) * pieceSize < 2 ^ 63 →
    entriesOf p (singleLoop pieceSize k i b).1 =
      [⟨0, p, 0, ((b + (p - i) * pieceSize : ℕ) : ℤ), toLong pieceSize⟩]
  | 0, i, b, p, h1, h2, _ => by omega
  | k + 1, i, b, p, h1, h2, hb => by
    rcases Nat.eq_or_lt_of_le h1 with rfl | hlt
    · have hrest : entriesOf i (singleLoop pieceSize k (i + 1) (toLong (b + pieceSize))).1 = [] := by
        refine List.filter_eq_nil_iff.mpr fun e he => ?_
        have := pieceIndex_singleLoop pieceSize k (i + 1) _ e he
        simp only [decide_eq_true_eq]
        omega
      have hcons : entriesOf i (singleLoop pieceSize (k + 1) i b).1 =
          ⟨0, i, 0, b, toLong pieceSize⟩ ::
            entriesOf i (singleLoop pieceSize k (i + 1) (toLong (b + pieceSize))).1 := by
        simp [entriesOf, singleLoop]
      rw [hcons, hrest]
      simp
    · obtain ⟨d, rfl⟩ : ∃ d, p = i + 1 + d := ⟨p - (i + 1), by omega⟩
      have hmul : (i + 1 + d - i) * pieceSize = pieceSize + d * pieceSize := by
        rw [show i + 1 + d - i = d + 1 by omega, Nat.add_mul, Nat.one_mul, Nat.add_comm]
      have hd : i + 1 + d - (i + 1) = d := by omega
      rw [hmul] at hb
      have hnext : toLong ((b : ℤ) + pieceSize) = ((b + pieceSize : ℕ) : ℤ) := by
        rw [← Nat.cast_add]
        exact toLong_natCast (by omega)
      have hcons : entriesOf (i + 1 + d) (singleLoop pieceSize (k + 1) i b).1 =
          entriesOf (i + 1 + d) (singleLoop pieceSize k (i + 1) ((b + pieceSize : ℕ) : ℤ)).1 := by
        simp only [entriesOf, singleLoop, hnext]
        exact List.filter_cons_of_neg (by simp; omega)
      have ih := entriesOf_singleLoop pieceSize k (i + 1) (b + pieceSize) (i + 1 + d) (by omega)
        (by omega) (by rw [hd]; omega)
      rw [hcons, ih, hmul, hd, Nat.add_assoc b]

section Single

variable {pl len fuel : ℕ} {pieces : List UInt8} {m : Manager}

/-- The single-file branch of `fill_files`: the sizes, and the entry of every piece that starts
before the end of the file. -/
theorem fillFiles_single (hpl : 0 < pl) (hpl63 : pl < 2 ^ 63) (hlen : len < 2 ^ 63)
    (h : fillFiles fuel ⟨pl, some len, [], pieces⟩ = .ok m) :
    m.pieceSize = pl ∧ m.lastPieceSize = len % pl ∧
      ∀ p, p < pieces.length / 20 → p * pl < len →
        entriesOf p m.piecesByFiles = [⟨0, p, 0, ((p * pl : ℕ) : ℤ), pl⟩] := by
  have hsize : toSize (pl : ℤ) = pl := toSize_natCast hpl63
  have hmod : len % pl ≤ len := Nat.mod_le len pl
  have hlast : toSize ((len : ℤ).tmod pl) = len % pl := by
    rw [← Int.ofNat_tmod]
    exact toSize_natCast (by omega)
  have hne : (pl : ℤ) ≠ 0 := by omega
  simp only [fillFiles, if_neg hne, Except.ok.injEq] at h
  subst h
  refine ⟨hsize, hlast, fun p hp hlt => ?_⟩
  have hloop := entriesOf_singleLoop pl (pieces.length / 20) 0 0 p (Nat.zero_le p) (by omega)
    (by rw [Nat.sub_zero, Nat.zero_add]; omega)
  simp only [Nat.zero_add, Nat.sub_zero, toLong_natCast hpl63, Nat.cast_zero] at hloop
  unfold entriesOf at hloop ⊢
  simp only [hsize, Info.pieceCount] at hloop ⊢
  rw [List.filter_append, hloop, List.filter_cons_of_neg (by simp; omega)]
  rfl

/-- **A piece is written to its place.** -/
theorem writePieceToFile_single {disk : Disk} {file : List UInt8} (piece : Piece)
    (hpl63 : pl < 2 ^ 63)
    (hentry : entriesOf piece.index m.piecesByFiles =
      [⟨0, piece.index, 0, ((piece.index * pl : ℕ) : ℤ), pl⟩])
    (hfile : disk 0 = some file) (heven : Even piece.blocks) (hsize : size piece.blocks ≤ pl) :
    writePieceToFile m disk piece =
      .ok (Function.update disk 0
        (some (writeAt (piece.index * pl) (contents piece.blocks) file))) := by
  have hget : ∀ i < (contents piece.blocks).length,
      get? piece.blocks i = (contents piece.blocks)[i]? := fun i hi =>
    get?_of_even heven (length_contents piece.blocks ▸ hi)
  have hlen : (contents piece.blocks).length ≤ pl := length_contents piece.blocks ▸ hsize
  have hpart := writePart_of_get? piece.index (piece.index * pl) hget
    (length_contents piece.blocks).symm (by omega) hpl63 (Nat.zero_le _) hfile
  rw [Nat.sub_zero, min_eq_left hlen, List.drop_zero, List.take_length, Nat.cast_zero] at hpart
  unfold entriesOf at hentry
  unfold writePieceToFile
  rw [hentry, if_neg (List.cons_ne_nil _ _), List.foldlM_cons, hpart]
  rfl

end Single

end CppTorrent.Files.SingleFile
