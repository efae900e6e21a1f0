import CppTorrent.Files.Blocks
import CppTorrent.Lib.ByteFile

/-! # The files of a torrent

`fill_files` computes, for every piece, the parts of files that it lies in; `WritePieceToFile` writes
a piece to these parts. A file is known by its position in the torrent. Every `FileInfo` is stored
under its own `piece_index`, so the map `pieces_by_files_` is the list of all of them in the order of
their insertion. `ReadPieceBlockFromFile` reads a range of a piece from them.

The lengths are `long long`s, which `fill_files` does not check. Here they are unbounded, and stand for
the code where no sum overflows (see `Files.Filling`). The inner loop need not end, so it is given a bound
on its rounds. When a piece is written or read the lengths are converted to unsigned. -/

namespace CppTorrent.Files.Storage

open CppTorrent.Files.Blocks CppTorrent.Lib.ByteFile

/-- What can go wrong: a bound is reached, a remainder by zero, an index is not in the map, a file
cannot be opened, a position is not in the piece. -/
inductive Fault where
  | timeout
  | divisionByZero
  | outOfRange
  | noFile
  | undefined
  deriving DecidableEq

/-- The part of the info dictionary that `fill_files` reads: with a `length` it is a single-file
torrent. -/
structure Info where
  pieceLength : ℤ
  length : Option ℤ
  files : List ℤ
  pieces : List UInt8

/-- `Torrent::GetPieceCount`. -/
def Info.pieceCount (info : Info) : ℕ := info.pieces.length / 20

/-- `bittorrent::FileInfo`. -/
structure FileInfo where
  path : ℕ
  pieceIndex : ℕ
  pieceBegin : ℤ
  fileBegin : ℤ
  size : ℤ
  deriving DecidableEq

/-- Conversion to a 64-bit unsigned type. -/
def toSize (z : ℤ) : ℕ := (z % 2 ^ 64).toNat

/-- Conversion to a 64-bit signed type. -/
def toLong (z : ℤ) : ℤ := z.bmod (2 ^ 64)

/-- `bittorrent::TorrentFilesManager`, as `fill_files` leaves it. -/
structure Manager where
  pieceSize : ℕ
  lastPieceSize : ℕ
  piecesByFiles : List FileInfo

/-! ### `fill_files` -/

/-- The loop over the pieces of a single-file torrent, with the place it ends at. -/
def singleLoop (pieceSize : ℕ) : ℕ → ℕ → ℤ → List FileInfo × ℤ
  | 0, _, fileBeg => ([], fileBeg)
  | k + 1, i, fileBeg =>
    let (rest, last) := singleLoop pieceSize k (i + 1) (toLong (fileBeg + pieceSize))
    (⟨0, i, 0, fileBeg, toLong pieceSize⟩ :: rest, last)

/-- The inner loop of the multi-file branch: the rest of a file goes over whole pieces. -/
def spill (pieceLength : ℤ) (path : ℕ) (bytesSize : ℤ) :
    ℕ → ℕ → ℤ → ℤ → Except Fault (List FileInfo × ℕ × ℤ)
  | fuel, curPieceIndex, curPieceBegin, fileBeg =>
    if pieceLength < curPieceBegin then
      match fuel with
      | 0 => .error .timeout
      | fuel + 1 => do
        let (rest, state) ← spill pieceLength path bytesSize fuel (curPieceIndex + 1)
          (curPieceBegin - pieceLength) (fileBeg + pieceLength)
        return (⟨path, curPieceIndex + 1, 0, fileBeg + pieceLength, bytesSize⟩ :: rest, state)
    else .ok ([], curPieceIndex, curPieceBegin)

/-- One file of the multi-file branch. -/
def addFile (fuel : ℕ) (pieceLength : ℤ) (path : ℕ) (bytesSize : ℤ) (curPieceIndex : ℕ)
    (curPieceBegin : ℤ) : Except Fault (List FileInfo × ℕ × ℤ) :=
  let first : FileInfo := ⟨path, curPieceIndex, curPieceBegin, 0, bytesSize⟩
  if curPieceBegin + bytesSize < pieceLength then
    .ok ([first], curPieceIndex, curPieceBegin + bytesSize)
  else do
    let fileBeg := pieceLength - curPieceBegin
    let (rest, state) ← spill pieceLength path bytesSize fuel (curPieceIndex + 1)
      (bytesSize - (pieceLength - curPieceBegin)) fileBeg
    return (first :: ⟨path, curPieceIndex + 1, 0, fileBeg, bytesSize⟩ :: rest, state)

/-- The loop over the files. -/
def addFiles (fuel : ℕ) (pieceLength : ℤ) : ℕ → List ℤ → ℕ → ℤ →
    Except Fault (List FileInfo × ℕ × ℤ)
  | _, [], curPieceIndex, curPieceBegin => .ok ([], curPieceIndex, curPieceBegin)
  | path, bytesSize :: files, curPieceIndex, curPieceBegin => do
    let (entries, curPieceIndex, curPieceBegin) ←
      addFile fuel pieceLength path bytesSize curPieceIndex curPieceBegin
    let (rest, state) ← addFiles fuel pieceLength (path + 1) files curPieceIndex curPieceBegin
    return (entries ++ rest, state)

/-- `TorrentFilesManager::fill_files`. -/
def fillFiles (fuel : ℕ) (info : Info) : Except Fault Manager :=
  let pieceSize := toSize info.pieceLength
  match info.length with
  | some bytesSize =>
    let (entries, fileBeg) := singleLoop pieceSize info.pieceCount 0 0
    if info.pieceLength = 0 then .error .divisionByZero
    else
      let lastPieceSize := toSize (bytesSize.tmod info.pieceLength)
      .ok ⟨pieceSize, lastPieceSize,
        entries ++ [⟨0, info.pieceCount, 0, fileBeg, toLong lastPieceSize⟩]⟩
  | none => do
    let (entries, _, curPieceBegin) ← addFiles fuel info.pieceLength 0 info.files 0 0
    return ⟨pieceSize, toSize curPieceBegin, entries⟩

/-! ### The disk -/

/-- The files on disk. -/
abbrev Disk : Type := ℕ → Option (List UInt8)

/-- A file created by `fill_files`: seeks to its last byte and writes it. -/
def createFile (bytesSize : ℤ) : List UInt8 := List.replicate bytesSize.toNat 0

/-- The files `fill_files` creates where there are none. -/
def createFiles (info : Info) : Disk := fun path =>
  match info.length with
  | some bytesSize => if path = 0 then some (createFile bytesSize) else none
  | none => info.files[path]?.map createFile

/-- The body of the loop of `WritePieceToFile`. -/
def writePart (blocks : List Block) (disk : Disk) (file : FileInfo) : Except Fault Disk :=
  match disk file.path with
  | none => .error .noFile
  | some contents =>
    let begin_ := toSize file.pieceBegin
    let curSize := min ((size blocks + (2 ^ 64 - begin_)) % 2 ^ 64) (toSize file.size)
    match (List.range' begin_ ((curSize + begin_) % 2 ^ 64 - begin_)).mapM (get? blocks) with
    | none => .error .undefined
    | some data =>
      if file.fileBegin < 0 then .ok disk
      else .ok (Function.update disk file.path (some (writeAt file.fileBegin.toNat data contents)))

/-- `TorrentFilesManager::WritePieceToFile`. -/
def writePieceToFile (m : Manager) (disk : Disk) (piece : Piece) : Except Fault Disk :=
  let files := m.piecesByFiles.filter fun file => file.pieceIndex = piece.index
  if files = [] then .error .outOfRange else files.foldlM (writePart piece.blocks) disk

/-- The loop of `ReadPieceBlockFromFile`. -/
def readParts (disk : Disk) : List FileInfo → ℕ → ℕ → Except Fault (List UInt8)
  | [], _, _ => .ok []
  | file :: files, blockBeg, length =>
    if length = 0 then .ok []
    else match disk file.path with
      | none => .error .noFile
      | some contents => do
        let rest := min (toSize (file.size - file.fileBegin - blockBeg)) length
        let size := if rest = 0 then length else rest
        let data := readAt (toSize (file.fileBegin + blockBeg)) size contents
        let next ← readParts disk files 0 (length - size)
        return data ++ next

/-- `std::upper_bound` in the entries of a piece, which are ordered by `piece_begin`: how many of them
do not begin after a position. -/
def upperBound (files : List FileInfo) (blockBeg : ℕ) : ℕ :=
  (files.takeWhile fun file => ¬ blockBeg < toSize file.pieceBegin).length

/-- `TorrentFilesManager::ReadPieceBlockFromFile`. -/
def readPieceBlockFromFile (m : Manager) (disk : Disk) (idx blockBeg length : ℕ) :
    Except Fault Block :=
  let files := m.piecesByFiles.filter fun file => file.pieceIndex = idx
  if files = [] then .error .outOfRange
  else match upperBound files blockBeg with
    | 0 => .error .undefined
    | it + 1 =>
      match files.drop it with
      | [] => .error .undefined
      | file :: rest => do
        let begin_ := toSize (blockBeg - file.pieceBegin)
        let data ← readParts disk (file :: rest) begin_ length
        return ⟨data, begin_ % 2 ^ 32⟩

/-! ### What is written to a part -/

theorem toSize_natCast {n : ℕ} (h : n < 2 ^ 63) : toSize (n : ℤ) = n := by
  unfold toSize
  omega

/-- If the blocks are indexed as a text is, the part of the text that falls into the file is written
to its place. -/
theorem writePart_of_get? {blocks : List Block} {text file : List UInt8} {disk : Disk}
    {path pb n : ℕ} (p fb : ℕ) (hget : ∀ i < text.length, get? blocks i = text[i]?)
    (hsize : size blocks = text.length) (hlen : text.length < 2 ^ 63) (hn : n < 2 ^ 63)
    (hpb : pb ≤ text.length) (hfile : disk path = some file) :
    writePart blocks disk ⟨path, p, pb, fb, n⟩ =
      .ok (Function.update disk path
        (some (writeAt fb ((text.drop pb).take (min (text.length - pb) n)) file))) := by
  have hb : toSize (pb : ℤ) = pb := toSize_natCast (by omega)
  have hz : toSize (n : ℤ) = n := toSize_natCast hn
  set c := min (text.length - pb) n with hc
  have hcur : min ((size blocks + (2 ^ 64 - pb)) % 2 ^ 64) n = c := by
    rw [hsize]
    omega
  have hrange : (c + pb) % 2 ^ 64 - pb = c := by omega
  have hmap : (List.range' pb c).mapM (get? blocks) = some ((text.drop pb).take c) :=
    mapM_get? hget (by omega)
  have hneg : ¬ (fb : ℤ) < 0 := by omega
  unfold writePart
  simp only [hfile, hb, hz, hcur, hrange, hmap, if_neg hneg, Int.toNat_natCast]

end CppTorrent.Files.Storage
