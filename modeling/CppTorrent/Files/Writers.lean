import CppTorrent.Files.MultiFile
import CppTorrent.Files.Reading
import CppTorrent.Lib.Writers

/-! # Pieces that are written and read at the same time

The worker threads write pieces and read ranges at the same time, with no lock on the files.
`WritePieceToFile` is a list of writes (`writesOf`), which a thread left alone does one after the
other (`writePieceToFile_run`). Other threads can take their turns after any portion of the bytes that
the stream hands on.

An entry can reach past the end of its file (`Files.Layout`), and then bytes of the next file are
written behind the end of this one. They are still the bytes of the content at their distance from the
start of the file, so all writes agree with the content from there on (`agrees_of_carries`). A range of
a piece is read from positions that the entries of the piece cover (`readParts_congr`). So a piece that
has been written is read as it is in the content, even from a file that is too long, and whatever else
is written meanwhile (`readable_run`). -/

namespace CppTorrent.Files.Writers

open CppTorrent.Files.Blocks CppTorrent.Files.Storage CppTorrent.Files.Layout
open CppTorrent.Files.SingleFile CppTorrent.Files.MultiFile CppTorrent.Files.Reading
open CppTorrent.Lib.ByteFile CppTorrent.Lib.Writers CppTorrent.Lib.Runs

/-! ### The writes of a piece -/

/-- What the body of the loop of `WritePieceToFile` writes: a negative position is not sought, and then
nothing is written. -/
def partOf (blocks : List Block) (file : FileInfo) : Option (Write ℕ) :=
  let begin_ := toSize file.pieceBegin
  let curSize := min ((size blocks + (2 ^ 64 - begin_)) % 2 ^ 64) (toSize file.size)
  ((List.range' begin_ ((curSize + begin_) % 2 ^ 64 - begin_)).mapM (get? blocks)).map fun data =>
    ⟨file.path, file.fileBegin.toNat, if file.fileBegin < 0 then [] else data⟩

/-- The writes of `WritePieceToFile`, file by file. -/
def writesOf (m : Manager) (piece : Piece) : Option (List (Write ℕ)) :=
  let files := m.piecesByFiles.filter fun file => file.pieceIndex = piece.index
  if files = [] then none else files.mapM (partOf piece.blocks)

theorem mem_of_mapM {α β : Type} {f : α → Option β} : ∀ {xs : List α} {ys : List β},
    xs.mapM f = some ys → ∀ y, y ∈ ys ↔ ∃ x ∈ xs, f x = some y
  | [], ys, h, y => by
    obtain rfl : [] = ys := Option.some.inj h
    simp
  | x :: xs, ys, h, y => by
    rw [List.mapM_cons] at h
    obtain ⟨y', hy', h⟩ := Option.bind_eq_some_iff.mp h
    obtain ⟨ys', hys', h⟩ := Option.bind_eq_some_iff.mp h
    obtain rfl : y' :: ys' = ys := Option.some.inj h
    have ih := mem_of_mapM hys' y
    simp only [List.mem_cons, exists_eq_or_imp, ih, hy', Option.some.injEq]
    exact or_congr_left eq_comm

theorem put_of_writePart {blocks : List Block} {disk disk' : Disk} {file : FileInfo}
    (h : writePart blocks disk file = .ok disk') :
    ∃ w, partOf blocks file = some w ∧ put disk w = some disk' := by
  unfold writePart at h
  split at h
  · cases h
  rename_i contents hfile
  dsimp only at h
  split at h
  · cases h
  rename_i data hdata
  refine ⟨⟨file.path, file.fileBegin.toNat, if file.fileBegin < 0 then [] else data⟩,
    congrArg (Option.map _) hdata, ?_⟩
  split_ifs at h with hneg
  · -- nothing is written
    cases h
    rw [if_pos hneg, put, hfile, Option.map_some, writeAt_nil, ← hfile, Function.update_eq_self]
  · cases h
    rw [if_neg hneg, put, hfile, Option.map_some]

theorem puts_of_writeParts {blocks : List Block} : ∀ {files : List FileInfo} {disk disk' : Disk},
    files.foldlM (writePart blocks) disk = .ok disk' →
    ∃ ws, files.mapM (partOf blocks) = some ws ∧ ws.foldlM put disk = some disk'
  | [], disk, disk', h => by
    cases h
    exact ⟨[], rfl, rfl⟩
  | file :: files, disk, disk', h => by
    rw [List.foldlM_cons] at h
    cases hpart : writePart blocks disk file with
    | error f =>
      rw [hpart] at h
      cases h
    | ok disk₁ =>
      rw [hpart] at h
      obtain ⟨w, hw, hput⟩ := put_of_writePart hpart
      obtain ⟨ws, hws, hputs⟩ := puts_of_writeParts h
      refine ⟨w :: ws, ?_, ?_⟩
      · rw [List.mapM_cons, hw, hws]
        rfl
      · rw [List.foldlM_cons, hput]
        exact hputs

/-- **`WritePieceToFile` is what a thread does that is left alone.** -/
theorem writePieceToFile_run {Thread : Type} [DecidableEq Thread] {m : Manager}
    {s : State ℕ Thread Piece} {t : Thread} {piece : Piece} {disk : Disk} (hfree : s.threads t = none)
    (h : writePieceToFile m s.store piece = .ok disk) :
    ∃ acts, run (step (writesOf m)) s acts = some ⟨disk, s.threads, piece :: s.finished⟩ := by
  unfold writePieceToFile at h
  dsimp only at h
  split_ifs at h with hnil
  obtain ⟨ws, hws, hputs⟩ := puts_of_writeParts h
  refine exists_run_of_free hfree ?_ hputs
  unfold writesOf
  rw [if_neg hnil]
  exact hws

/-! ### The bytes of the content -/

/-- The piece carries its part of the content. -/
structure Carries (pl : ℕ) (content : List UInt8) (piece : Piece) : Prop where
  inside : piece.index * pl < content.length
  size_eq : size piece.blocks = (pieceText pl content piece.index).length
  get?_eq : ∀ i < (pieceText pl content piece.index).length,
    get? piece.blocks i = (pieceText pl content piece.index)[i]?

/-- A piece cut from the content carries its part. -/
theorem carries_pieceOf {pl : ℕ} {content : List UInt8} {p : ℕ} (hp : p * pl < content.length) :
    Carries pl content (pieceOf pl content p) :=
  ⟨hp, size_cut _, fun _ hi => get?_cut hi⟩

/-- The content from the start of each file on. -/
def textOf (lens : List ℕ) (content : List UInt8) (i : ℕ) : List UInt8 :=
  content.drop (globalStart lens i)

section Writes

variable {pl : ℕ} {lens : List ℕ} {content : List UInt8} {piece : Piece}

/-- **What an entry writes of a piece.** -/
theorem partOf_entry {path pb fb n : ℕ} (hlen : content.length < 2 ^ 63) (hn : n < 2 ^ 63)
    (hpiece : Carries pl content piece)
    (hplace : piece.index * pl + pb = globalStart lens path + fb)
    (hpb : pb ≤ pieceLen pl content.length piece.index) :
    partOf piece.blocks (entry path piece.index pb fb n) = some ⟨path, fb,
      (window pl content.length (entry path piece.index pb fb n)).bytes (textOf lens content path)⟩ := by
  have htext : (pieceText pl content piece.index).length = pieceLen pl content.length piece.index :=
    length_pieceText _
  have hle : pieceLen pl content.length piece.index ≤ content.length := by
    unfold pieceLen
    omega
  have hsize := hpiece.size_eq.trans htext
  have hb : toSize (pb : ℤ) = pb := toSize_natCast (by omega)
  have hz : toSize (n : ℤ) = n := toSize_natCast hn
  have hneg : ¬ (fb : ℤ) < 0 := by omega
  set c := min (pieceLen pl content.length piece.index - pb) n with hc
  have hcur : min ((size piece.blocks + (2 ^ 64 - pb)) % 2 ^ 64) n = c := by
    rw [hsize]
    omega
  have hrange : (c + pb) % 2 ^ 64 - pb = c := by omega
  have hmap : (List.range' pb c).mapM (get? piece.blocks) =
      some (((pieceText pl content piece.index).drop pb).take c) :=
    mapM_get? hpiece.get?_eq (by omega)
  unfold textOf
  rw [← window_bytes hplace hpb path, ← hc]
  unfold partOf
  simp only [entry, hb, hz, hcur, hrange, hmap, Int.toNat_natCast, Option.map_some]
  exact congrArg (fun data => some (Write.mk path fb data)) (if_neg hneg)

/-- What a usable entry of the piece writes. -/
theorem partOf_of_usable {e : FileInfo} (hlen : content.length < 2 ^ 63) (hlens : ∀ n ∈ lens, n < 2 ^ 63)
    (hpiece : Carries pl content piece) (he : Usable pl lens content piece.index e) :
    partOf piece.blocks e = some ⟨e.path, e.fileBegin.toNat,
      (window pl content.length e).bytes (textOf lens content e.path)⟩ := by
  obtain ⟨i, n, pb, fb, hi, rfl, hplace, hpb⟩ := he
  exact partOf_entry hlen (hlens n (List.mem_of_getElem? hi)) hpiece hplace hpb

variable {m : Manager} {ws : List (Write ℕ)}

theorem mem_writesOf (hws : writesOf m piece = some ws) (w : Write ℕ) :
    w ∈ ws ↔ ∃ e ∈ entriesOf piece.index m.piecesByFiles, partOf piece.blocks e = some w := by
  unfold writesOf at hws
  dsimp only at hws
  split_ifs at hws
  exact mem_of_mapM hws w

theorem usable_of_mem (hcontent : content.length = lens.sum) (hpos : ∀ n ∈ lens, 0 < n)
    (hlay : IsLayout pl content.length 0 0 lens m.piecesByFiles) (hpiece : Carries pl content piece)
    {e : FileInfo} (he : e ∈ entriesOf piece.index m.piecesByFiles) :
    Usable pl lens content piece.index e := by
  obtain ⟨hmem, hidx⟩ := List.mem_filter.mp he
  rw [decide_eq_true_eq] at hidx
  rw [← hidx]
  exact usable_of_layout hcontent hpos hlay hmem (hidx ▸ hpiece.inside)

section Layout

variable (hlen : content.length < 2 ^ 63) (hcontent : content.length = lens.sum)
  (hpos : ∀ n ∈ lens, 0 < n) (hlay : IsLayout pl content.length 0 0 lens m.piecesByFiles)
  (hpiece : Carries pl content piece) (hws : writesOf m piece = some ws)

include hlen hcontent hpos hlay hpiece hws

/-- **All that is written are bytes of the content**, also behind the end of a file. -/
theorem agrees_of_carries {w : Write ℕ} (hw : w ∈ ws) : w.Agrees (textOf lens content) := by
  have hlens : ∀ n ∈ lens, n < 2 ^ 63 := fun n hn =>
    (List.single_le_sum (fun _ _ => Nat.zero_le _) n hn).trans_lt (hcontent ▸ hlen)
  obtain ⟨e, he, hpart⟩ := (mem_writesOf hws w).mp hw
  have husable := usable_of_mem hcontent hpos hlay hpiece he
  rw [partOf_of_usable hlen hlens hpiece husable, Option.some.injEq] at hpart
  subst hpart
  intro k hk
  obtain ⟨i, n, pb, fb, -, rfl, -⟩ := husable
  simp only [Window.bytes, List.length_take] at hk
  simp only [Window.getElem?_bytes]
  rw [if_pos (by omega), window_entry]
  rfl

/-- **A piece writes all its positions.** -/
theorem exists_write_covers {i n y : ℕ} (hi : lens[i]? = some n) (hy : y < n)
    (hle : piece.index * pl ≤ globalStart lens i + y)
    (hlt : globalStart lens i + y < piece.index * pl + pl) : ∃ w ∈ ws, w.Covers i y := by
  have hlens : ∀ n ∈ lens, n < 2 ^ 63 := fun n hn =>
    (List.single_le_sum (fun _ _ => Nat.zero_le _) n hn).trans_lt (hcontent ▸ hlen)
  obtain ⟨e, he, hpath, hused, hholds⟩ := hlay.cover i n hi y hy
  rw [Nat.zero_add] at hpath
  obtain ⟨j, n', p, pb, fb, hj, rfl, hplace, -, hz⟩ := hlay.place e he
  obtain rfl : j = i := by
    change 0 + j = i at hpath
    omega
  -- the entry belongs to the piece
  have hidx : p = piece.index := by
    rw [window_entry] at hholds
    obtain ⟨h1, h2⟩ := hholds
    simp only [pieceLen] at h1 h2
    unfold globalStart at hle hlt
    have hlo : p * pl < (piece.index + 1) * pl := by
      rw [Nat.add_mul, Nat.one_mul]
      omega
    have hhi : piece.index * pl < (p + 1) * pl := by
      rw [Nat.add_mul, Nat.one_mul]
      omega
    have h3 := Nat.lt_of_mul_lt_mul_right hlo
    have h4 := Nat.lt_of_mul_lt_mul_right hhi
    omega
  have hmem : entry (0 + j) p pb fb n' ∈ entriesOf piece.index m.piecesByFiles :=
    List.mem_filter.mpr ⟨he, decide_eq_true hidx⟩
  have husable := usable_of_mem hcontent hpos hlay hpiece hmem
  have hin : (window pl content.length (entry (0 + j) p pb fb n')).start +
      (window pl content.length (entry (0 + j) p pb fb n')).size ≤ (textOf lens content j).length := by
    have hstart := globalStart_le lens j
    change p * pl < content.length at hused
    unfold textOf
    rw [window_entry, List.length_drop]
    unfold globalStart at hstart ⊢
    simp only [pieceLen]
    rcases hz with rfl | rfl <;> omega
  refine ⟨_, (mem_writesOf hws _).mpr ⟨_, hmem, partOf_of_usable hlen hlens hpiece husable⟩,
    Nat.zero_add j, ?_⟩
  have hpath' : (entry (0 + j) p pb fb n').path = j := Nat.zero_add j
  rw [hpath', Window.length_bytes hin]
  rw [window_entry] at hholds ⊢
  exact hholds

end Layout

end Writes

/-! ### Reading -/

section Read

variable {pl : ℕ} {lens : List ℕ} {disk disk' : Disk}

/-- Two disks have the same bytes between two positions of the content. -/
def SameFromTo (lens : List ℕ) (disk disk' : Disk) (start stop : ℕ) : Prop :=
  ∀ i n y, lens[i]? = some n → y < n → start ≤ globalStart lens i + y → globalStart lens i + y < stop →
    ∃ b, byteAt disk i y = some b ∧ byteAt disk' i y = some b

theorem readAt_congr {pos n : ℕ} {file file' : List UInt8}
    (h : ∀ y, pos ≤ y → y < pos + n → file[y]? = file'[y]?) : readAt pos n file = readAt pos n file' := by
  refine List.map_congr_left fun y hy => ?_
  obtain ⟨hle, hlt⟩ := List.mem_range'_1.mp hy
  rw [List.getD_eq_getElem?_getD, List.getD_eq_getElem?_getD, h y hle hlt]

/-- **A row is read from the positions of its piece only.** -/
theorem readParts_congr {p stop i pb fb : ℕ} {es : List FileInfo} (hsum : lens.sum < 2 ^ 63)
    (hpos : ∀ n ∈ lens, 0 < n) (hsame : SameFromTo lens disk disk' (p * pl) (p * pl + stop))
    (h : Row lens p stop i pb fb es) : ∀ {o len n : ℕ}, p * pl + pb = globalStart lens i + fb →
    lens[i]? = some n → fb + o < n → pb + o + len ≤ stop →
    readParts disk es o len = readParts disk' es o len := by
  -- one entry
  have hpart : ∀ {i pb fb n o len : ℕ} {es : List FileInfo}, p * pl + pb = globalStart lens i + fb →
      lens[i]? = some n → fb + o < n → pb + o + len ≤ stop → 0 < len →
      (∀ len', len' = len - min (n - (fb + o)) len → readParts disk es 0 len' = readParts disk' es 0 len') →
      readParts disk (entry i p pb fb n :: es) o len =
        readParts disk' (entry i p pb fb n :: es) o len := by
    intro i pb fb n o len es hplace hi ho hle hlen hrest
    have hn63 : n < 2 ^ 63 := by
      have hend := globalStart_le lens (i + 1)
      rw [globalStart_succ hi] at hend
      omega
    have h1 : toSize ((n : ℤ) - fb - o) = n - (fb + o) := by
      unfold toSize
      omega
    have h2 : toSize ((fb : ℤ) + o) = fb + o := by
      unfold toSize
      omega
    have hmin : min (n - (fb + o)) len ≠ 0 := by omega
    have hbyte : ∀ y, fb + o ≤ y → y < fb + o + min (n - (fb + o)) len →
        ∃ b, byteAt disk i y = some b ∧ byteAt disk' i y = some b := fun y hy hy' =>
      hsame i n y hi (by omega) (by omega) (by omega)
    obtain ⟨b, hb, hb'⟩ := hbyte (fb + o) le_rfl (by omega)
    obtain ⟨file, hfile, -⟩ := Option.bind_eq_some_iff.mp hb
    obtain ⟨file', hfile', -⟩ := Option.bind_eq_some_iff.mp hb'
    have hread : readAt (fb + o) (min (n - (fb + o)) len) file =
        readAt (fb + o) (min (n - (fb + o)) len) file' := by
      refine readAt_congr fun y hy hy' => ?_
      obtain ⟨b, hb, hb'⟩ := hbyte y hy hy'
      rw [byteAt, hfile, Option.bind_some] at hb
      rw [byteAt, hfile', Option.bind_some] at hb'
      rw [hb, hb']
    rw [readParts, readParts, if_neg (by omega), if_neg (by omega)]
    simp only [entry, hfile, hfile', h1, h2, if_neg hmin, hread, hrest _ rfl]
  induction h with
  | @last i n pb fb hn hfb hstop =>
    intro o len n' hplace hi ho hle
    obtain rfl : n = n' := Option.some.inj (hn.symm.trans hi)
    rcases Nat.eq_zero_or_pos len with rfl | hlen
    · rw [readParts_zero, readParts_zero]
    · exact hpart hplace hi ho hle hlen fun _ _ => rfl
  | @cons i n pb fb es hn hfb hrow ih =>
    intro o len n' hplace hi ho hle
    obtain rfl : n = n' := Option.some.inj (hn.symm.trans hi)
    rcases Nat.eq_zero_or_pos len with rfl | hlen
    · rw [readParts_zero, readParts_zero]
    refine hpart hplace hi ho hle hlen fun len' hlen' => ?_
    subst hlen'
    rcases Nat.le_total len (n - (fb + o)) with hshort | hlong
    · rw [min_eq_right hshort, Nat.sub_self, readParts_zero, readParts_zero]
    · rw [min_eq_left hlong]
      obtain ⟨m, rest, hm, -⟩ := hrow.eq_cons
      have hnext : p * pl + (pb + (n - fb)) = globalStart lens (i + 1) + 0 := by
        rw [globalStart_succ hn]
        omega
      exact ih hnext hm (hpos m (List.mem_of_getElem? hm)) (by omega)

/-- A range of a piece is read alike from two disks that have the same bytes at its positions. -/
theorem readPieceBlockFromFile_congr {m : Manager} {p i fb begin_ len : ℕ} (hsum : lens.sum < 2 ^ 63)
    (hpos : ∀ n ∈ lens, 0 < n)
    (hsame : SameFromTo lens disk disk' (p * pl) (p * pl + pieceLen pl lens.sum p))
    (hrow : Row lens p (pieceLen pl lens.sum p) i 0 fb (entriesOf p m.piecesByFiles))
    (hplace : p * pl = globalStart lens i + fb) (hlen : 0 < len)
    (hle : begin_ + len ≤ pieceLen pl lens.sum p) :
    readPieceBlockFromFile m disk p begin_ len = readPieceBlockFromFile m disk' p begin_ len := by
  obtain ⟨it, i', pb, fb', hub, hrow', hplace', hpb, hin⟩ :=
    upperBound_row hsum (p * pl) hrow (by omega) hplace (Nat.zero_le begin_)
  obtain ⟨n, rest, hn, hcons⟩ := hrow'.eq_cons
  have hbeg : toSize ((begin_ : ℤ) - (entry i' p pb fb' n).pieceBegin) = begin_ - pb := by
    have hle' : begin_ < 2 ^ 63 := by
      unfold pieceLen at hle
      omega
    change toSize ((begin_ : ℤ) - pb) = begin_ - pb
    unfold toSize
    omega
  have hread : readParts disk _ (begin_ - pb) len = readParts disk' _ (begin_ - pb) len :=
    readParts_congr hsum hpos hsame hrow' hplace' hn (hin n hn) (by omega)
  rw [hcons] at hread
  unfold entriesOf at hub hcons
  unfold readPieceBlockFromFile
  simp only [hub, hcons, hbeg, hread]

end Read

/-! ### Pieces that have been written -/

section Run

variable {pl : ℕ} {files : List (List UInt8)}

/-- What a range of a piece is read as from the files of the content. -/
theorem readPieceBlockFromFile_content {m : Manager} {p i fb begin_ len : ℕ}
    (hpos : ∀ file ∈ files, 0 < file.length) (hsum : (files.map List.length).sum < 2 ^ 63)
    (hrow : Row (files.map List.length) p (pieceLen pl (files.map List.length).sum p) i 0 fb
      (entriesOf p m.piecesByFiles))
    (hplace : p * pl = globalStart (files.map List.length) i + fb) (hlen : 0 < len)
    (hle : begin_ + len ≤ pieceLen pl (files.map List.length).sum p) :
    (readPieceBlockFromFile m (fun i => files[i]?) p begin_ len).map Block.data =
      .ok ((files.flatten.drop (p * pl + begin_)).take len) := by
  obtain ⟨i', x, file, hfile, hx, hstart, hread⟩ :=
    readPieceBlockFromFile_row (fun _ => rfl) hsum hrow hplace hlen hle
  have hall : ∀ f ∈ file.drop x :: files.drop (i' + 1), f ≠ [] := by
    intro f hf
    rcases List.mem_cons.mp hf with rfl | hf
    · rw [ne_eq, List.drop_eq_nil_iff]
      omega
    · exact List.length_pos_iff.mp (hpos f (List.mem_of_mem_drop hf))
  have hflatten : (files.drop (i' + 1)).flatten =
      files.flatten.drop (globalStart (files.map List.length) (i' + 1)) := by
    rw [globalStart, List.drop_sum_flatten]
  rw [hread, readFiles_of_ne_nil hall, List.flatten_cons, hflatten, ← drop_flatten hfile hx.le, hstart]

/-- A byte of a file is the byte of the content from the start of the file on. -/
theorem getElem?_textOf {i y : ℕ} {file : List UInt8} (hfile : files[i]? = some file)
    (hy : y < file.length) : (textOf (files.map List.length) files.flatten i)[y]? = file[y]? := by
  have hdrop := drop_flatten hfile (Nat.zero_le _)
  rw [Nat.add_zero, List.drop_zero] at hdrop
  rw [textOf, hdrop, List.getElem?_append_left hy]

/-- **A piece that has been written is read as it is in the content**, by a reader that reads each of
its bytes at any time from then on. The threads write pieces of the content, in any order and with
repetitions, to files that hold anything and may grow too long. No file of the torrent is empty: those
that are can be read as zeros (`Files.EmptyFiles`). -/
theorem readable_run (pl : ℕ) (hpl : 0 < pl) (files : List (List UInt8))
    (hpos : ∀ file ∈ files, 0 < file.length) (hsum : (files.map List.length).sum < 2 ^ 63)
    (sha1s : List UInt8) {Thread : Type} [DecidableEq Thread] :
    ∃ bound, ∀ fuel ≥ bound, ∃ m,
      fillFiles fuel ⟨pl, none, files.map fun file => (file.length : ℤ), sha1s⟩ = .ok m ∧
      ∀ (disk : Disk) (acts : List (Act Thread Piece)) (s : State ℕ Thread Piece),
        Along (step (writesOf m)) (Starts (Carries pl files.flatten)) (idle disk) acts →
        run (step (writesOf m)) (idle disk) acts = some s →
        ∀ piece ∈ s.finished, ∀ view, View (writesOf m) (Carries pl files.flatten) s view →
          ∀ begin_ len, 1 ≤ len →
            begin_ + len ≤ min pl ((files.map List.length).sum - piece.index * pl) →
            (readPieceBlockFromFile m view piece.index begin_ len).map Block.data =
              .ok ((files.flatten.drop (piece.index * pl + begin_)).take len) := by
  refine ⟨(files.map List.length).sum, fun fuel hfuel => ?_⟩
  have hcontent : files.flatten.length = (files.map List.length).sum := List.length_flatten
  have hlens : ∀ n ∈ files.map List.length, 0 < n := by
    intro n hn
    obtain ⟨file, hfile, rfl⟩ := List.mem_map.mp hn
    exact hpos file hfile
  obtain ⟨m, hfill, hlay, hrow⟩ := fillFiles_row pl hpl (files.map List.length) sha1s hfuel
  rw [← map_length_cast] at hfill
  rw [← hcontent] at hlay
  have hP : ∀ piece ws, Carries pl files.flatten piece → writesOf m piece = some ws →
      ∀ w ∈ ws, w.Agrees (textOf (files.map List.length) files.flatten) :=
    fun piece ws hpiece hws w hw => agrees_of_carries (hcontent ▸ hsum) hcontent hlens hlay hpiece hws hw
  refine ⟨m, hfill, fun disk acts s hstarts hrun piece hpiece view hview begin_ len hlen hle => ?_⟩
  have hs := sound_of_run hP (sound_idle disk) hstarts hrun
  obtain ⟨hcarries, ws, hws, hheld⟩ := hs.held_of_finished hpiece
  rcases hrow piece.index with ⟨-, hend⟩ | ⟨i, fb, hplace, hrow⟩
  · have := hcarries.inside
    omega
  have hsame : SameFromTo (files.map List.length) view (fun i => files[i]?) (piece.index * pl)
      (piece.index * pl + pieceLen pl (files.map List.length).sum piece.index) := by
    intro i n y hi hy hfrom hto
    obtain ⟨file, hfile, rfl⟩ : ∃ file, files[i]? = some file ∧ file.length = n := by simpa using hi
    unfold pieceLen at hto
    obtain ⟨w, hw, hcovers⟩ := exists_write_covers (hcontent ▸ hsum) hcontent hlens hlay hcarries hws hi
      hy hfrom (by omega)
    have hbyte := (held_of_view hP hs (hheld w hw i y hcovers) hview).2
    rw [getElem?_textOf hfile hy] at hbyte
    refine ⟨file[y], hbyte.trans (List.getElem?_eq_getElem hy), ?_⟩
    rw [byteAt, hfile, Option.bind_some, List.getElem?_eq_getElem hy]
  rw [readPieceBlockFromFile_congr hsum hlens hsame hrow hplace hlen hle]
  exact readPieceBlockFromFile_content hpos hsum hrow hplace hlen hle

end Run

/-- Two threads write the two pieces of six bytes in turns. -/
def turns : List (Act Bool Piece) :=
  [.start true (pieceOf 3 [10, 20, 30, 40, 50, 60] 1), .flush true 1,
    .start false (pieceOf 3 [10, 20, 30, 40, 50, 60] 0), .flush false 3, .close false, .finish false,
    .flush true 2, .close true, .flush true 1, .close true, .finish true]

/-- The layout of files of five bytes and one byte with pieces of three. -/
def fiveOne : Manager :=
  ⟨3, 0, [⟨0, 0, 0, 0, 5⟩, ⟨0, 1, 0, 3, 5⟩, ⟨1, 1, 2, 0, 1⟩, ⟨1, 2, 0, 1, 1⟩]⟩

/-- Files of five bytes and one byte with pieces of three: the first file ends up with six bytes. -/
theorem readable_run_grown :
    ∃ bound, ∀ fuel ≥ bound, ∃ m s, fillFiles fuel ⟨3, none, [5, 1], []⟩ = .ok m ∧
      run (step (writesOf m)) (idle (createFiles ⟨3, none, [5, 1], []⟩)) turns = some s ∧
      (readPieceBlockFromFile m s.store 1 1 2).map Block.data = .ok [50, 60] := by
  obtain ⟨bound, h⟩ := @readable_run 3 (by decide) [[10, 20, 30, 40, 50], [60]] (by decide) (by decide)
    [] Bool _
  refine ⟨bound + 1, fun fuel hfuel => ?_⟩
  obtain ⟨fuel, rfl⟩ : ∃ fuel', fuel = fuel' + 1 := ⟨fuel - 1, by omega⟩
  obtain ⟨m, hm, hread⟩ := h (fuel + 1) (by omega)
  have hm' : fillFiles (fuel + 1) ⟨3, none, [5, 1], []⟩ = .ok fiveOne := rfl
  obtain rfl := Except.ok.inj (hm'.symm.trans hm)
  have hfinished : (run (step (writesOf fiveOne)) (idle (createFiles ⟨3, none, [5, 1], []⟩)) turns).map
      State.finished = some [pieceOf 3 [10, 20, 30, 40, 50, 60] 1, pieceOf 3 [10, 20, 30, 40, 50, 60] 0] :=
    rfl
  obtain ⟨s, hs, hfinished⟩ := Option.map_eq_some_iff.mp hfinished
  have hstarts : Along (step (writesOf fiveOne)) (Starts (Carries 3 [10, 20, 30, 40, 50, 60]))
      (idle (createFiles ⟨3, none, [5, 1], []⟩)) turns := by
    refine along_starts _ fun t job hmem => ?_
    simp only [turns, List.mem_cons, reduceCtorEq, Act.start.injEq, false_or, or_false,
      List.not_mem_nil] at hmem
    rcases hmem with ⟨-, rfl⟩ | ⟨-, rfl⟩
    · exact carries_pieceOf (by decide)
    · exact carries_pieceOf (by decide)
  exact ⟨_, s, hm, hs, hread _ _ _ hstarts hs _ (hfinished ▸ List.mem_cons_self) _ (view_self s) 1 2
    (by decide) (by decide)⟩

end CppTorrent.Files.Writers
