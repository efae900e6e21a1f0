import CppTorrent.Files.Filling
import CppTorrent.Files.Layout
import CppTorrent.Files.SingleFile
import CppTorrent.Lib.Fallible
import CppTorrent.Swarm.Model

/-! # The sizes of the pieces

`TryToRequestPiece` takes `last_piece_size_` for the size of the last piece and `piece_size_` for all
others. `fill_files` computes `last_piece_size_` as a remainder in a single-file torrent, and as the
position of its cursor after the last file otherwise. In both cases it is what is left of the content
after some whole pieces, and at most a piece. So it is the size of the last piece exactly if it is not
zero (`sizes_right_iff`). It is zero if the content ends with a piece, unless a file brings the cursor
to the end of a piece and all files after it have the size of one. `fill_files` gets there only if no sum
of the cursor and the length of a file overflows (`lastPiece_iff`). -/

namespace CppTorrent.Swarm.PieceSizes

open CppTorrent.Files.Storage CppTorrent.Files.Layout CppTorrent.Files.SingleFile
open CppTorrent.Files.Filling CppTorrent.Lib.Fallible
open CppTorrent.Swarm.Model

/-! ### What is claimed of the sizes -/

/-- Conversion of an unsigned number to `double`: 53 significant bits, rounded to nearest even. -/
def toDouble (n : ℕ) : ℕ :=
  let unit := 2 ^ (n.log2 - 52)
  let q := n / unit
  let r := n % unit
  if unit < 2 * r ∨ (2 * r = unit ∧ q % 2 = 1) then (q + 1) * unit else q * unit

/-- The `block_count` of a chosen piece. The division of a `double` by a power of two is exact. -/
def blockCount (pieceSize : ℕ) : ℕ := blockCountOf (toDouble pieceSize)

/-- The last piece is what the others leave of the content, and no piece is empty. -/
structure SizesRight (cfg : Config) (pl total : ℕ) : Prop where
  last : cfg.manager.lastPieceSize + (cfg.total - 1) * pl = total
  pos : 1 ≤ cfg.manager.lastPieceSize
  le : cfg.manager.lastPieceSize ≤ pl
  sum : ((List.range cfg.total).map cfg.sizeOf).sum = total
  blocks : ∀ i < cfg.total, 1 ≤ blockCount (cfg.sizeOf i)

/-- The lengths in an info dictionary: of a single file, or of several files. -/
inductive Lengths where
  | single (length : ℕ)
  | multi (files : List ℕ)

/-- The length of the content. -/
def Lengths.total : Lengths → ℕ
  | .single length => length
  | .multi files => files.sum

/-- The info dictionary. -/
def Lengths.info (pl : ℕ) (pieces : List UInt8) : Lengths → Info
  | .single length => ⟨pl, some length, [], pieces⟩
  | .multi files => ⟨pl, none, files.map Nat.cast, pieces⟩

/-- The lengths of the files. -/
def Lengths.all : Lengths → List ℕ
  | .single length => [length]
  | .multi files => files

/-- The piece length is positive, it and the lengths of the files are `long long`s, and there are as many
hashes as the content has pieces. The sum of the lengths may be beyond the range. -/
structure Consistent (pl : ℕ) (lengths : Lengths) (pieces : List UInt8) : Prop where
  pl_pos : 0 < pl
  pl_lt : pl < 2 ^ 63
  total_pos : 0 < lengths.total
  all_lt : ∀ n ∈ lengths.all, n < 2 ^ 63
  hashes : pieces.length = 20 * ((lengths.total + pl - 1) / pl)

/-- A file reaches past the end of the piece that it starts in, and the files after it have the size of
a piece. -/
def EndsFull (pl : ℕ) (files : List ℕ) : Prop :=
  ∃ init n k, files = init ++ n :: List.replicate k pl ∧ pl < init.sum % pl + n

/-- When `fill_files` computes the size of the last piece: the content does not end with a piece, or a
cursor stands at the end of the last piece. -/
def Lengths.KeepsLast (pl : ℕ) : Lengths → Prop
  | .single length => ¬ pl ∣ length
  | .multi files => ¬ pl ∣ files.sum ∨ EndsFull pl files

/-- `fill_files` returns, whatever an overflow does, and the sizes of the pieces are right. -/
def FillsRight (opens : ℕ → Bool) (fuel pl : ℕ) (lengths : Lengths) (pieces : List UInt8)
    (sha1 : List UInt8 → List UInt8) (optimal : Bool) : Prop :=
  ∀ ovf, ∃ m, fillFilesLong ovf opens fuel (lengths.info pl pieces) = .ok m ∧
    SizesRight ⟨m, pieces, sha1, optimal⟩ pl lengths.total

/-! ### All of it by the last piece -/

theorem toDouble_pos {n : ℕ} (h : 0 < n) : 0 < toDouble n := by
  have hunit : 2 ^ (n.log2 - 52) ≤ n :=
    (Nat.pow_le_pow_right (by omega) (Nat.sub_le _ _)).trans (Nat.log2_self_le h.ne')
  have hq : 0 < n / 2 ^ (n.log2 - 52) := Nat.div_pos hunit (Nat.two_pow_pos _)
  unfold toDouble
  dsimp only
  split_ifs
  · exact Nat.mul_pos (Nat.succ_pos _) (Nat.two_pow_pos _)
  · exact Nat.mul_pos hq (Nat.two_pow_pos _)

/-- A piece that is not empty has a block. -/
theorem blockCount_pos {n : ℕ} (h : 0 < n) : 1 ≤ blockCount n := by
  have hpos := toDouble_pos h
  unfold blockCount blockCountOf Files.Blocks.mostRequestSize
  omega

variable {cfg : Config} {pl total : ℕ}

theorem sum_sizeOf {k : ℕ} (hcount : cfg.total = k + 1) :
    ((List.range cfg.total).map cfg.sizeOf).sum =
      k * cfg.manager.pieceSize + cfg.manager.lastPieceSize := by
  have hinit : (List.range k).map cfg.sizeOf = List.replicate k cfg.manager.pieceSize := by
    refine List.eq_replicate_iff.mpr ⟨by rw [List.length_map, List.length_range], fun x hx => ?_⟩
    obtain ⟨i, hi, rfl⟩ := List.mem_map.mp hx
    have hlt := List.mem_range.mp hi
    unfold Config.sizeOf
    rw [if_neg (by omega)]
  have hlast : cfg.sizeOf k = cfg.manager.lastPieceSize := by
    unfold Config.sizeOf
    rw [if_pos hcount.symm]
  rw [hcount, List.range_succ, List.map_append, List.sum_append, hinit, List.sum_replicate,
    List.map_singleton, List.sum_singleton, hlast, smul_eq_mul]

/-- **What a cursor leaves is the size of the last piece exactly if it is not zero.** -/
theorem sizes_right_iff (hpl : 0 < pl) (htotal : 0 < total) (hsize : cfg.manager.pieceSize = pl)
    (hcount : cfg.total = (total + pl - 1) / pl) {c : ℕ}
    (hcursor : c * pl + cfg.manager.lastPieceSize = total) (hle : cfg.manager.lastPieceSize ≤ pl) :
    SizesRight cfg pl total ↔ 0 < cfg.manager.lastPieceSize := by
  refine ⟨fun h => h.pos, fun hpos => ?_⟩
  have hc : cfg.total = c + 1 := by
    rw [hcount, ← hcursor]
    refine Nat.div_eq_of_lt_le ?_ ?_
    · rw [Nat.add_mul]
      omega
    · rw [Nat.add_mul, Nat.add_mul]
      omega
  refine ⟨?_, hpos, hle, ?_, fun i hi => blockCount_pos ?_⟩
  · rw [hc, Nat.add_sub_cancel, Nat.add_comm]
    exact hcursor
  · rw [sum_sizeOf hc, hsize]
    exact hcursor
  · unfold Config.sizeOf
    split_ifs
    · exact hpos
    · rw [hsize]
      exact hpl

/-! ### The cursor after all files -/

/-- A file that ends before the piece moves the cursor to its end. -/
theorem addFile_short (fuel path c : ℕ) {n b : ℕ} (h : b + n < pl) :
    ∃ entries, addFile fuel pl path n c b = .ok (entries, c, ((b + n : ℕ) : ℤ)) := by
  unfold addFile
  dsimp only
  rw [if_pos (by omega)]
  exact ⟨_, rfl⟩

/-- A file that ends with the piece leaves the cursor at the start of the next one. -/
theorem addFile_exact (fuel path c : ℕ) {n b : ℕ} (h : b + n = pl) :
    ∃ entries, addFile fuel pl path n c b = .ok (entries, c + 1, ((0 : ℕ) : ℤ)) := by
  have hrest : (n : ℤ) - (pl - b) = 0 := by omega
  have hspill : ∀ fileBeg, spill pl path n fuel (c + 1) 0 fileBeg = .ok ([], c + 1, 0) := by
    intro fileBeg
    unfold spill
    rw [if_neg (by omega)]
  unfold addFile
  dsimp only
  rw [if_neg (by omega), hrest, hspill]
  exact ⟨_, rfl⟩

/-- **When a file leaves the cursor at the start of a piece.** -/
theorem addFile_cursor (hpl : 0 < pl) (path c : ℕ) {n b fuel : ℕ} (hb : b ≤ pl) (hf : n ≤ fuel) :
    ∃ entries c' b', addFile fuel pl path n c b = .ok (entries, c', ((b' : ℕ) : ℤ)) ∧
      c' * pl + b' = c * pl + b + n ∧ b' ≤ pl ∧ (b' = 0 ↔ b + n = pl ∨ b + n = 0) := by
  rcases Nat.lt_trichotomy (b + n) pl with hlt | heq | hgt
  · obtain ⟨entries, hadd⟩ := addFile_short fuel path c hlt
    exact ⟨entries, c, b + n, hadd, by omega, by omega, by omega⟩
  · obtain ⟨entries, hadd⟩ := addFile_exact fuel path c heq
    refine ⟨entries, c + 1, 0, hadd, ?_, by omega, by omega⟩
    rw [Nat.add_mul]
    omega
  · obtain ⟨entries, c', b', hadd, hcursor, hle, hzero, -⟩ := addFile_spec hpl path (c := c) hb hf
    refine ⟨entries, c', b', hadd, hcursor, hle, fun h0 => Or.inl (hzero (by omega) h0), fun h => ?_⟩
    omega

/-- One more file. -/
theorem addFiles_append {fuel : ℕ} {pieceLength n : ℤ} : ∀ {files : List ℤ} {path c : ℕ} {b : ℤ}
    {entries last : List FileInfo} {c' c'' : ℕ} {b' b'' : ℤ},
    addFiles fuel pieceLength path files c b = .ok (entries, c', b') →
    addFile fuel pieceLength (path + files.length) n c' b' = .ok (last, c'', b'') →
    ∃ all, addFiles fuel pieceLength path (files ++ [n]) c b = .ok (all, c'', b'')
  | [], path, c, b, entries, last, c', c'', b', b'', h, hlast => by
    obtain ⟨-, rfl, rfl⟩ : [] = entries ∧ c = c' ∧ b = b' := by simpa [addFiles] using h
    rw [List.length_nil, Nat.add_zero] at hlast
    exact ⟨last ++ [], bind_eq_ok.mpr ⟨_, hlast, rfl⟩⟩
  | m :: files, path, c, b, entries, last, c', c'', b', b'', h, hlast => by
    rw [addFiles] at h
    obtain ⟨⟨head, ch, bh⟩, hhead, h⟩ := bind_eq_ok.mp h
    obtain ⟨⟨tail, ct, bt⟩, htail, h⟩ := bind_eq_ok.mp h
    obtain ⟨-, rfl, rfl⟩ : head ++ tail = entries ∧ ct = c' ∧ bt = b' := by
      simpa [pure, Except.pure] using h
    rw [List.length_cons, ← Nat.add_assoc, Nat.add_right_comm] at hlast
    obtain ⟨all, hall⟩ := addFiles_append htail hlast
    refine ⟨head ++ all, ?_⟩
    rw [List.cons_append, addFiles]
    exact bind_eq_ok.mpr ⟨_, hhead, bind_eq_ok.mpr ⟨_, hall, rfl⟩⟩

/-- The last file is the one that reaches past the end of a piece, or it has the size of a piece. -/
theorem endsFull_append {files : List ℕ} {n : ℕ} :
    EndsFull pl (files ++ [n]) ↔ pl < files.sum % pl + n ∨ (n = pl ∧ EndsFull pl files) := by
  constructor
  · rintro ⟨init, m, k, h, hlt⟩
    rcases k with _ | k
    · obtain ⟨rfl, hn⟩ := List.append_inj' h rfl
      obtain rfl := List.singleton_inj.mp hn
      exact Or.inl hlt
    · rw [List.replicate_succ', ← List.cons_append, ← List.append_assoc] at h
      obtain ⟨rfl, hn⟩ := List.append_inj' h rfl
      exact Or.inr ⟨List.singleton_inj.mp hn, init, m, k, rfl, hlt⟩
  · rintro (hlt | ⟨rfl, init, m, k, rfl, hlt⟩)
    · exact ⟨files, n, 0, rfl, hlt⟩
    · exact ⟨init, m, k + 1, by simp [List.replicate_succ'], hlt⟩

/-- What a cursor means for the next file, if the content ends with a piece after it. -/
theorem endsFull_step {s n b c : ℕ} (hpl : 0 < pl) (hcursor : c * pl + b = s) (hb : b ≤ pl)
    (hdvd : pl ∣ s + n) :
    ¬ (b + n = pl ∨ b + n = 0) ↔ pl < s % pl + n ∨ (n = pl ∧ 0 < b) := by
  have hn : pl ∣ b + n := by
    rw [← hcursor, Nat.add_assoc] at hdvd
    exact (Nat.dvd_add_right (Nat.dvd_mul_left pl c)).mp hdvd
  obtain ⟨q, hq⟩ := hn
  rcases Nat.lt_or_ge b pl with hlt | hge
  · have hmod : s % pl = b := by
      rw [← hcursor, Nat.mul_comm, Nat.mul_add_mod, Nat.mod_eq_of_lt hlt]
    rcases q with _ | _ | q
    · omega
    · omega
    · have : pl * (q + 1 + 1) = pl * q + pl + pl := by rw [Nat.mul_succ, Nat.mul_succ]
      omega
  · obtain rfl : b = pl := by omega
    have hmod : s % b = 0 := by rw [← hcursor, ← Nat.succ_mul, Nat.mul_mod_left]
    rcases q with _ | _ | q
    · omega
    · omega
    · have : b * (q + 1 + 1) = b * q + b + b := by rw [Nat.mul_succ, Nat.mul_succ]
      rcases q with _ | q
      · omega
      · have : b * (q + 1) = b * q + b := Nat.mul_succ b q
        omega

/-- **The cursor after all files**, and when it is not at the start of a piece. -/
theorem addFiles_cursor (hpl : 0 < pl) (fuel : ℕ) (files : List ℕ) (hf : ∀ n ∈ files, n ≤ fuel) :
    ∃ entries c b, addFiles fuel pl 0 (files.map Nat.cast) 0 ((0 : ℕ) : ℤ) =
        .ok (entries, c, ((b : ℕ) : ℤ)) ∧
      c * pl + b = files.sum ∧ b ≤ pl ∧ (0 < b ↔ ¬ pl ∣ files.sum ∨ EndsFull pl files) := by
  induction files using List.reverseRecOn with
  | nil =>
    refine ⟨[], 0, 0, rfl, by simp, by omega, iff_of_false (by omega) ?_⟩
    rintro (h | ⟨init, n, k, h, -⟩)
    · exact h (dvd_zero pl)
    · exact List.append_ne_nil_of_right_ne_nil init (List.cons_ne_nil _ _) h.symm
  | append_singleton files n ih =>
    rw [List.forall_mem_append, List.forall_mem_singleton] at hf
    obtain ⟨entries, c, b, hadds, hcursor, hb, hpos⟩ := ih hf.1
    obtain ⟨last, c', b', hadd, hcursor', hb', hzero⟩ :=
      addFile_cursor hpl (0 + (files.map (Nat.cast (R := ℤ))).length) c hb hf.2
    obtain ⟨all, hall⟩ := addFiles_append hadds hadd
    rw [hcursor] at hcursor'
    refine ⟨all, c', b', ?_, ?_, hb', ?_⟩
    · rw [List.map_append, List.map_singleton]
      exact hall
    · rw [List.sum_append, List.sum_singleton]
      exact hcursor'
    · rw [List.sum_append, List.sum_singleton, endsFull_append]
      by_cases hdvd : pl ∣ files.sum + n
      · have hlast : n = pl ∧ 0 < b ↔ n = pl ∧ EndsFull pl files := by
          refine and_congr_right fun hn => ?_
          rw [hn] at hdvd
          rw [hpos, or_iff_right (not_not.mpr ((Nat.dvd_add_left (dvd_refl pl)).mp hdvd))]
        rw [Nat.pos_iff_ne_zero, ne_eq, hzero, endsFull_step hpl hcursor hb hdvd, hlast,
          or_iff_right (not_not.mpr hdvd)]
      · refine iff_of_true (Nat.pos_of_ne_zero fun h0 => hdvd ?_) (Or.inl hdvd)
        rw [← hcursor', h0]
        exact Nat.dvd_mul_left pl c'

/-! ### Both kinds of torrents -/

theorem Consistent.longs {lengths : Lengths} {pieces : List UInt8} (h : Consistent pl lengths pieces) :
    Longs (lengths.info pl pieces) := by
  have hpl : InLong pl := inLong_natCast h.pl_lt
  have hall : ∀ n ∈ lengths.all, InLong n := fun n hn => inLong_natCast (h.all_lt n hn)
  rcases lengths with length | files
  · refine ⟨hpl, fun n hn => ?_, fun n hn => absurd hn List.not_mem_nil⟩
    obtain rfl := Option.mem_some_iff.mp hn
    exact hall length (List.mem_singleton_self length)
  · refine ⟨hpl, fun n hn => absurd hn (Option.not_mem_none n), fun n hn => ?_⟩
    obtain ⟨k, hk, rfl⟩ := List.mem_map.mp hn
    exact hall k hk

/-- **On integers the sizes of the pieces are right exactly if** the content does not end with a piece,
or the cursor stands at the end of the last piece after the last file. -/
theorem sizesRight_of_fillFiles {lengths : Lengths} {pieces : List UInt8} {fuel : ℕ} {m : Manager}
    (sha1 : List UInt8 → List UInt8) (optimal : Bool) (h : Consistent pl lengths pieces)
    (hf : 2 ^ 63 ≤ fuel) (hm : fillFiles fuel (lengths.info pl pieces) = .ok m) :
    SizesRight ⟨m, pieces, sha1, optimal⟩ pl lengths.total ↔ lengths.KeepsLast pl := by
  obtain ⟨hpl, hpl63, htotal, hall, hhashes⟩ := h
  have hcount : Config.total ⟨m, pieces, sha1, optimal⟩ = (lengths.total + pl - 1) / pl := by
    change pieces.length / 20 = _
    omega
  rcases lengths with length | files
  · have hlen : length < 2 ^ 63 := hall length (List.mem_singleton_self length)
    obtain ⟨hsize, hlast, -⟩ := fillFiles_single hpl hpl63 hlen hm
    have hcursor : length / pl * pl + m.lastPieceSize = length := by
      rw [hlast, Nat.div_add_mod']
    have hle : m.lastPieceSize ≤ pl := by
      rw [hlast]
      exact (Nat.mod_lt length hpl).le
    refine (sizes_right_iff hpl htotal hsize hcount hcursor hle).trans ?_
    change 0 < m.lastPieceSize ↔ ¬ pl ∣ length
    rw [hlast, Nat.pos_iff_ne_zero, ne_eq, Nat.dvd_iff_mod_eq_zero]
  · obtain ⟨entries, c, b, hadds, hcursor, hle, hpos⟩ :=
      addFiles_cursor hpl fuel files fun n hn => (hall n hn).le.trans hf
    have hsize : toSize (pl : ℤ) = pl := toSize_natCast hpl63
    have hlast : toSize (b : ℤ) = b := toSize_natCast (by omega)
    cases (fillFiles_of_addFiles hadds pieces).symm.trans hm
    refine (sizes_right_iff hpl htotal hsize hcount (c := c) ?_ ?_).trans ?_
    · change c * pl + toSize (b : ℤ) = files.sum
      rw [hlast]
      exact hcursor
    · change toSize (b : ℤ) ≤ pl
      rw [hlast]
      exact hle
    · change 0 < toSize (b : ℤ) ↔ _
      rw [hlast]
      exact hpos

/-- What `fill_files` returns without an overflow decides whether it fills right. -/
theorem fillsRight_of_stop {opens : ℕ → Bool} {lengths : Lengths} {pieces : List UInt8} {fuel : ℕ}
    {m : Manager} {sha1 : List UInt8 → List UInt8} {optimal : Bool} (h : Consistent pl lengths pieces)
    (hf : 2 ^ 63 ≤ fuel) (hm : fillFilesLong stop opens fuel (lengths.info pl pieces) = .ok m) :
    FillsRight opens fuel pl lengths pieces sha1 optimal ↔ lengths.KeepsLast pl := by
  have hright := sizesRight_of_fillFiles sha1 optimal h hf (fillFiles_of_stop hm)
  constructor
  · intro hfills
    obtain ⟨m', hm', hsizes⟩ := hfills stop
    cases hm.symm.trans hm'
    exact hright.mp hsizes
  · intro hkeeps ovf
    exact ⟨m, fillFiles_any ovf hm, hright.mpr hkeeps⟩

/-- **`fill_files` returns and the sizes of the pieces are right exactly if** no sum of the position in a
piece and the length of the next file overflows, and the content does not end with a piece or the cursor
stands at the end of the last piece after the last file. -/
theorem lastPiece_iff (opens : ℕ → Bool) (pl : ℕ) (lengths : Lengths) (pieces : List UInt8)
    (sha1 : List UInt8 → List UInt8) (optimal : Bool) (h : Consistent pl lengths pieces) (fuel : ℕ)
    (hfuel : 2 ^ 63 ≤ fuel) :
    FillsRight opens fuel pl lengths pieces sha1 optimal ↔
      CanFill opens (lengths.info pl pieces) ∧ lengths.KeepsLast pl := by
  constructor
  · intro hfills
    obtain ⟨m, hm, -⟩ := hfills stop
    exact ⟨canFill_of_stop ⟨m, hm⟩, (fillsRight_of_stop h hfuel hm).mp hfills⟩
  · rintro ⟨hfit, hkeeps⟩
    obtain ⟨m, hm⟩ := fillFiles_returns stop h.longs hfuel hfit
    exact (fillsRight_of_stop h hfuel hm).mpr hkeeps

/-- Two files of 3 and 6 bytes in pieces of 4. -/
theorem lastPiece_iff_two :
    FillsRight (fun _ => false) (2 ^ 63) 4 (.multi [3, 6]) (List.replicate 60 0) id true ↔
      CanFill (fun _ => false) (Lengths.info 4 (List.replicate 60 0) (.multi [3, 6])) ∧
        Lengths.KeepsLast 4 (.multi [3, 6]) :=
  lastPiece_iff (fun _ => false) 4 (.multi [3, 6]) (List.replicate 60 0) id true
    ⟨by decide, by decide, by decide, by decide, rfl⟩ (2 ^ 63) le_rfl

/-- One piece, of one file: the sizes are not right, with either kind of torrent. -/
theorem not_fillsRight_onePiece :
    (Consistent 4 (.single 4) (List.replicate 20 0) ∧
      ∀ opens fuel, 2 ^ 63 ≤ fuel →
        ¬ FillsRight opens fuel 4 (.single 4) (List.replicate 20 0) id true) ∧
    Consistent 4 (.multi [4]) (List.replicate 20 0) ∧
      ∀ opens fuel, 2 ^ 63 ≤ fuel →
        ¬ FillsRight opens fuel 4 (.multi [4]) (List.replicate 20 0) id true := by
  have hsingle : Consistent 4 (.single 4) (List.replicate 20 0) :=
    ⟨by decide, by decide, by decide, by decide, rfl⟩
  have hmulti : Consistent 4 (.multi [4]) (List.replicate 20 0) :=
    ⟨by decide, by decide, by decide, by decide, rfl⟩
  refine ⟨⟨hsingle, fun opens fuel hf hfills => ?_⟩, hmulti, fun opens fuel hf hfills => ?_⟩
  · obtain ⟨m, hm, hsizes⟩ := hfills stop
    exact (sizesRight_of_fillFiles id true hsingle hf (fillFiles_of_stop hm)).mp hsizes (dvd_refl 4)
  · obtain ⟨m, hm, hsizes⟩ := hfills stop
    rcases (sizesRight_of_fillFiles id true hmulti hf (fillFiles_of_stop hm)).mp hsizes with h | h
    · exact h (dvd_refl 4)
    · obtain ⟨init, n, k, hfiles, hlt⟩ := h
      have hlen := congrArg List.length hfiles
      simp only [List.length_append, List.length_cons, List.length_replicate, List.length_nil] at hlen
      obtain rfl : init = [] := List.length_eq_zero_iff.mp (by omega)
      obtain rfl := (List.cons.inj hfiles).1
      exact absurd hlt (by decide)

end CppTorrent.Swarm.PieceSizes
