import CppTorrent.Files.MultiFile
import CppTorrent.Files.SingleFile

/-! # A single file as a store

Pieces of a content are written to a single file in any order, with repetitions, and ranges of them
are read back. A write copies the window of its piece (`writePieceToFile_pieceOf`), so when every
piece has been written the file is the content.

A read takes the size of its entry, which is the piece length, for the size of the file: the bytes
that are left, `size - file_begin - block_beg`, are zero or wrap around for every piece but the first.
`readSize_single` says that this never cuts a read short. -/

namespace CppTorrent.Files.SingleStore

open CppTorrent.Files.Blocks CppTorrent.Files.Storage CppTorrent.Files.Layout
open CppTorrent.Files.SingleFile CppTorrent.Files.MultiFile CppTorrent.Lib.ByteFile

/-! ### Writing -/

/-- The positions of a piece in the file. -/
def pieceWindow (pl total p : ℕ) : Window := ⟨p * pl, pieceLen pl total p⟩

section Write

variable {pl : ℕ} {content : List UInt8} {m : Manager}

theorem bytes_pieceWindow (p : ℕ) :
    (pieceWindow pl content.length p).bytes content = pieceText pl content p := by
  change ((content.drop (p * pl)).take (pieceLen pl content.length p)) = (content.drop (p * pl)).take pl
  rw [List.take_eq_take_iff, List.length_drop, pieceLen]
  omega

/-- **A piece of the content is copied to its place.** -/
theorem writePieceToFile_pieceOf {disk : Disk} {file : List UInt8} {p : ℕ} (hpl63 : pl < 2 ^ 63)
    (hentry : entriesOf p m.piecesByFiles = [⟨0, p, 0, ((p * pl : ℕ) : ℤ), pl⟩]) (hpl : 0 < pl)
    (hp : p * pl < content.length) (hfile : disk 0 = some file) :
    writePieceToFile m disk (pieceOf pl content p) =
      .ok (Function.update disk 0
        (some (copyWindow content file (pieceWindow pl content.length p)))) := by
  have hlen : (pieceText pl content p).length = pieceLen pl content.length p := length_pieceText p
  have hne : pieceText pl content p ≠ [] := by
    rw [← List.length_pos_iff, hlen, pieceLen]
    omega
  have hsize : size (pieceOf pl content p).blocks ≤ pl := by
    change size (cut (pieceText pl content p)) ≤ pl
    rw [size_cut, hlen, pieceLen]
    exact min_le_left _ _
  rw [writePieceToFile_single (pieceOf pl content p) hpl63 hentry hfile (even_cut hne) hsize,
    copyWindow, bytes_pieceWindow]
  change Except.ok (Function.update disk 0 (some (writeAt (p * pl)
    (contents (cut (pieceText pl content p))) file))) = _
  rw [contents_cut]
  rfl

/-- Pieces written one after the other are copied one after the other. -/
theorem foldlM_writePieceToFile_pieceOf (hpl63 : pl < 2 ^ 63) (hpl : 0 < pl)
    (hentry : ∀ p, p * pl < content.length →
      entriesOf p m.piecesByFiles = [⟨0, p, 0, ((p * pl : ℕ) : ℤ), pl⟩]) (order : List ℕ) :
    ∀ {disk : Disk} {file : List UInt8}, (∀ p ∈ order, p * pl < content.length) →
      disk 0 = some file →
      ∃ disk', (order.map (pieceOf pl content)).foldlM (writePieceToFile m) disk = .ok disk' ∧
        disk' 0 = some (copyWindows content file (order.map (pieceWindow pl content.length))) := by
  induction order with
  | nil =>
    intro disk file _ hfile
    exact ⟨disk, rfl, hfile⟩
  | cons p order ih =>
    intro disk file hord hfile
    have hp := hord p (by simp)
    set file' := copyWindow content file (pieceWindow pl content.length p) with hfile'
    have hnext : Function.update disk 0 (some file') 0 = some file' := Function.update_self ..
    obtain ⟨disk', hfold, hdisk'⟩ := ih (fun q hq => hord q (by simp [hq])) hnext
    refine ⟨disk', ?_, hdisk'⟩
    rw [List.map_cons, List.foldlM_cons, writePieceToFile_pieceOf hpl63 (hentry p hp) hpl hp hfile]
    exact hfold

/-- **When every piece has been written the file is the content.** -/
theorem copyWindows_pieceWindow (hpl : 0 < pl) {order : List ℕ} {file : List UInt8}
    (hfile : file.length = content.length) (hord : ∀ p, p ∈ order ↔ p * pl < content.length) :
    copyWindows content file (order.map (pieceWindow pl content.length)) = content := by
  have hin : ∀ w ∈ order.map (pieceWindow pl content.length), w.start + w.size ≤ content.length := by
    intro w hw
    obtain ⟨p, hp, rfl⟩ := List.mem_map.mp hw
    have hlt := (hord p).mp hp
    change p * pl + pieceLen pl content.length p ≤ content.length
    unfold pieceLen
    omega
  have hcover : ∀ i < file.length, ∃ w ∈ order.map (pieceWindow pl content.length), w.Holds i := by
    intro i hi
    have hdiv := Nat.div_add_mod i pl
    have hmod := Nat.mod_lt i hpl
    rw [Nat.mul_comm] at hdiv
    refine ⟨pieceWindow pl content.length (i / pl), List.mem_map_of_mem ((hord _).mpr (by omega)),
      ?_, ?_⟩
    · change i / pl * pl ≤ i
      omega
    · change i < i / pl * pl + pieceLen pl content.length (i / pl)
      unfold pieceLen
      omega
  rw [(copyWindows_eq_take_iff hin hcover).mpr fun w hw => Or.inr (hfile ▸ hin w hw), hfile,
    List.take_length]

end Write

/-! ### Reading -/

/-- **The wrapped size does not cut a read short**: the bytes left in the entry are none, and then the
whole length is read, or at least as many as are asked for. -/
theorem readSize_single {pl total p begin_ len : ℕ} (htotal : total < 2 ^ 63) (hpl : pl < 2 ^ 63)
    (hle : begin_ + len ≤ pieceLen pl total p) :
    min (toSize ((pl : ℤ) - ((p * pl : ℕ) : ℤ) - begin_)) len = 0 ∨
      min (toSize ((pl : ℤ) - ((p * pl : ℕ) : ℤ) - begin_)) len = len := by
  have hmul : p * pl = 0 ∨ pl ≤ p * pl := by
    rcases Nat.eq_zero_or_pos p with rfl | hp
    · exact Or.inl (Nat.zero_mul pl)
    · exact Or.inr (Nat.le_mul_of_pos_left pl hp)
  unfold pieceLen at hle
  unfold toSize
  omega

/-- A range of a piece is read from its place in the file. -/
theorem readPieceBlockFromFile_single {pl p begin_ len : ℕ} {m : Manager} {disk : Disk}
    {content : List UInt8} (htotal : content.length < 2 ^ 63) (hpl : pl < 2 ^ 63)
    (hentry : entriesOf p m.piecesByFiles = [⟨0, p, 0, ((p * pl : ℕ) : ℤ), pl⟩])
    (hdisk : disk 0 = some content) (hlen : 0 < len)
    (hle : begin_ + len ≤ pieceLen pl content.length p) :
    (readPieceBlockFromFile m disk p begin_ len).map Block.data =
      .ok ((content.drop (p * pl + begin_)).take len) := by
  have hin : p * pl + begin_ + len ≤ content.length := by
    unfold pieceLen at hle
    omega
  have hbeg : toSize ((begin_ : ℤ) - 0) = begin_ := by
    rw [Int.sub_zero]
    exact toSize_natCast (by omega)
  have hpos : toSize (((p * pl : ℕ) : ℤ) + begin_) = p * pl + begin_ := by
    rw [← Nat.cast_add]
    exact toSize_natCast (by omega)
  have hub : upperBound [⟨0, p, 0, ((p * pl : ℕ) : ℤ), pl⟩] begin_ = 1 := by
    rw [upperBound, List.takeWhile_cons_of_pos (by simp [toSize])]
    rfl
  set rest := min (toSize ((pl : ℤ) - ((p * pl : ℕ) : ℤ) - begin_)) len with hrest
  have hsize : (if rest = 0 then len else rest) = len := by
    rcases readSize_single htotal hpl hle with h | h
    · exact if_pos h
    · rw [if_neg (by omega)]
      exact h
  have hread : readParts disk [⟨0, p, 0, ((p * pl : ℕ) : ℤ), pl⟩] begin_ len =
      .ok ((content.drop (p * pl + begin_)).take len) := by
    rw [readParts, if_neg (by omega)]
    simp only [hdisk, ← hrest, hsize, hpos, readParts, readAt_eq_take hin]
    simp
  unfold entriesOf at hentry
  unfold readPieceBlockFromFile
  simp only [hentry, hub, if_neg (List.cons_ne_nil _ _), List.drop_zero, hbeg, hread]
  rfl

/-- **Single-file storage is a faithful store.** -/
theorem write_read_single (pl len : ℕ) (hpl : 0 < pl) (hlen : 0 < len) (hbound : len + pl < 2 ^ 63)
    (sha1s : List UInt8) (hsha1s : sha1s.length = 20 * ((len + pl - 1) / pl)) (content : List UInt8)
    (hcontent : content.length = len) (order : List ℕ)
    (horder : ∀ p, p ∈ order ↔ p < (len + pl - 1) / pl) (fuel : ℕ) :
    ∃ m disk, fillFiles fuel ⟨pl, some len, [], sha1s⟩ = .ok m ∧
      (order.map (pieceOf pl content)).foldlM (writePieceToFile m)
        (createFiles ⟨pl, some len, [], sha1s⟩) = .ok disk ∧
      disk 0 = some content ∧
      ∀ idx begin_ n, idx < (len + pl - 1) / pl → 1 ≤ n →
        begin_ + n ≤ min pl (len - idx * pl) →
        (readPieceBlockFromFile m disk idx begin_ n).map Block.data =
          .ok ((content.drop (idx * pl + begin_)).take n) := by
  subst hcontent
  have hcount : ∀ p, p < (content.length + pl - 1) / pl ↔ p * pl < content.length := by
    intro p
    rw [Nat.lt_div_iff_mul_lt hpl]
    omega
  have hne : (pl : ℤ) ≠ 0 := by omega
  obtain ⟨m, hm⟩ : ∃ m, fillFiles fuel ⟨pl, some content.length, [], sha1s⟩ = .ok m := by
    simp only [fillFiles, if_neg hne]
    exact ⟨_, rfl⟩
  obtain ⟨-, -, hentries⟩ := fillFiles_single hpl (by omega) (by omega) hm
  have hentry : ∀ p, p * pl < content.length →
      entriesOf p m.piecesByFiles = [⟨0, p, 0, ((p * pl : ℕ) : ℤ), pl⟩] := by
    intro p hp
    refine hentries p ?_ hp
    have := (hcount p).mpr hp
    omega
  have hfile : createFiles ⟨pl, some content.length, [], sha1s⟩ 0 =
      some (List.replicate content.length 0) := by
    simp [createFiles, createFile]
  obtain ⟨disk, hwrite, hdisk⟩ := foldlM_writePieceToFile_pieceOf (by omega) hpl hentry order
    (fun p hp => (hcount p).mp ((horder p).mp hp)) hfile
  rw [copyWindows_pieceWindow hpl List.length_replicate fun p => (horder p).trans (hcount p)] at hdisk
  exact ⟨m, disk, hm, hwrite, hdisk, fun idx begin_ n hidx hn hle =>
    readPieceBlockFromFile_single (by omega) (by omega) (hentry idx ((hcount idx).mp hidx)) hdisk hn
      hle⟩

/-- Five bytes in pieces of two, written out of order and with a repetition. -/
theorem write_read_single_five :
    ∃ m disk, fillFiles 0 ⟨2, some 5, [], List.replicate 60 0⟩ = .ok m ∧
      ([2, 0, 2, 1].map (pieceOf 2 [10, 20, 30, 40, 50])).foldlM (writePieceToFile m)
        (createFiles ⟨2, some 5, [], List.replicate 60 0⟩) = .ok disk ∧
      disk 0 = some [10, 20, 30, 40, 50] ∧
      (readPieceBlockFromFile m disk 1 0 2).map Block.data = .ok [30, 40] := by
  obtain ⟨m, disk, hm, hwrite, hdisk, hread⟩ := write_read_single 2 5 (by decide) (by decide)
    (by decide) (List.replicate 60 0) (by decide) [10, 20, 30, 40, 50] (by decide) [2, 0, 2, 1]
    (fun p => by simp; omega) 0
  exact ⟨m, disk, hm, hwrite, hdisk, hread 1 0 2 (by decide) (by decide) (by decide)⟩

end CppTorrent.Files.SingleStore
