import CppTorrent.Files.Layout
import CppTorrent.Files.SingleFile

/-! # Reading from the files of a multi-file torrent

The entries of one piece stand in a row (`Row`): each of them but the first belongs to the next file
and begins in the piece where the file before it ends, and the last file reaches to the end of the
piece. `addFiles_row` finds these rows in what `fill_files` computes. They have entries without bytes:
a file that ends with the piece it starts in has an entry at its end for the next piece, and a file
that starts at a piece boundary may have one at the end of the piece before.

`ReadPieceBlockFromFile` skips these: `upper_bound` finds the last entry that does not begin after the
position, and its file has the byte there (`upperBound_row`). From there on it reads the bytes of the
files one after the other (`readParts_row`). -/

namespace CppTorrent.Files.Reading

open CppTorrent.Files.Blocks CppTorrent.Files.Storage CppTorrent.Files.Layout
open CppTorrent.Files.SingleFile CppTorrent.Lib.ByteFile

/-- The position of a file in the content. -/
def globalStart (lens : List ℕ) (i : ℕ) : ℕ := (lens.take i).sum

theorem globalStart_succ {lens : List ℕ} {i n : ℕ} (h : lens[i]? = some n) :
    globalStart lens (i + 1) = globalStart lens i + n := by
  unfold globalStart
  rw [List.take_add_one, h, List.sum_append]
  simp

theorem globalStart_le (lens : List ℕ) (i : ℕ) : globalStart lens i ≤ lens.sum := by
  unfold globalStart
  conv_rhs => rw [← List.take_append_drop i lens, List.sum_append]
  omega

/-- The entries of piece `p` from its position `pb` on, where byte `fb` of file `i` lies; they reach
to the position `stop`. -/
inductive Row (lens : List ℕ) (p stop : ℕ) : ℕ → ℕ → ℕ → List FileInfo → Prop
  | last {i n pb fb : ℕ} (hn : lens[i]? = some n) (hfb : fb ≤ n) (hstop : stop ≤ pb + (n - fb)) :
      Row lens p stop i pb fb [entry i p pb fb n]
  | cons {i n pb fb : ℕ} {es : List FileInfo} (hn : lens[i]? = some n) (hfb : fb ≤ n)
      (hrow : Row lens p stop (i + 1) (pb + (n - fb)) 0 es) :
      Row lens p stop i pb fb (entry i p pb fb n :: es)

section Row

variable {lens : List ℕ} {p stop i pb fb : ℕ} {es : List FileInfo}

theorem Row.eq_cons (h : Row lens p stop i pb fb es) :
    ∃ n rest, lens[i]? = some n ∧ es = entry i p pb fb n :: rest := by
  cases h with
  | last hn => exact ⟨_, [], hn, rfl⟩
  | cons hn => exact ⟨_, _, hn, rfl⟩

theorem Row.le_pieceBegin (h : Row lens p stop i pb fb es) : ∀ e ∈ es, (pb : ℤ) ≤ e.pieceBegin := by
  induction h with
  | last =>
    intro e he
    rw [List.mem_singleton.mp he]
    rfl
  | @cons i n pb fb es hn hfb _ ih =>
    intro e he
    rcases List.mem_cons.mp he with rfl | he
    · rfl
    · have := ih e he
      omega

/-- **The entries of a piece are ordered by `piece_begin`.** -/
theorem Row.pairwise (h : Row lens p stop i pb fb es) :
    es.Pairwise fun e e' => e.pieceBegin ≤ e'.pieceBegin := by
  induction h with
  | last => exact List.pairwise_singleton _ _
  | @cons i n pb fb es hn hfb hrow ih =>
    refine List.pairwise_cons.mpr ⟨fun e he => ?_, ih⟩
    have hle := hrow.le_pieceBegin e he
    change (pb : ℤ) ≤ e.pieceBegin
    omega

/-- `upper_bound` finds the entry whose file has the byte at a position. -/
theorem upperBound_row (hsum : lens.sum < 2 ^ 63) (base : ℕ) {begin_ : ℕ}
    (h : Row lens p stop i pb fb es) (hlt : begin_ < stop)
    (hplace : base + pb = globalStart lens i + fb) (hle : pb ≤ begin_) :
    ∃ it i' pb' fb', upperBound es begin_ = it + 1 ∧ Row lens p stop i' pb' fb' (es.drop it) ∧
      base + pb' = globalStart lens i' + fb' ∧ pb' ≤ begin_ ∧
      ∀ n, lens[i']? = some n → fb' + (begin_ - pb') < n := by
  -- where a file ends is a 64-bit number
  have hend : ∀ {i n : ℕ}, lens[i]? = some n → globalStart lens i + n < 2 ^ 63 := by
    intro i n hn
    rw [← globalStart_succ hn]
    exact (globalStart_le lens (i + 1)).trans_lt hsum
  induction h with
  | @last i n pb fb hn hfb hstop =>
    have hn63 := hend hn
    refine ⟨0, i, pb, fb, ?_, Row.last hn hfb hstop, hplace, hle, fun m hm => ?_⟩
    · have hpb : toSize (pb : ℤ) = pb := toSize_natCast (by omega)
      simp [upperBound, entry, hpb, hle]
    · obtain rfl : n = m := Option.some.inj (hn.symm.trans hm)
      omega
  | @cons i n pb fb es hn hfb hrow ih =>
    have hn63 := hend hn
    have hpb : toSize (pb : ℤ) = pb := toSize_natCast (by omega)
    have hcons : upperBound (entry i p pb fb n :: es) begin_ = upperBound es begin_ + 1 := by
      simp [upperBound, entry, hpb, hle]
    by_cases hnext : pb + (n - fb) ≤ begin_
    · have hplace' : base + (pb + (n - fb)) = globalStart lens (i + 1) + 0 := by
        rw [globalStart_succ hn]
        omega
      obtain ⟨it, i', pb', fb', hub, hrow', hplace'', hle', hlt'⟩ := ih hplace' hnext
      refine ⟨it + 1, i', pb', fb', by rw [hcons, hub], ?_, hplace'', hle', hlt'⟩
      rw [List.drop_succ_cons]
      exact hrow'
    · -- the next entry begins after the position
      have hnil : upperBound es begin_ = 0 := by
        obtain ⟨m, rest, -, rfl⟩ := hrow.eq_cons
        have hbig : begin_ < toSize ((pb + (n - fb) : ℕ) : ℤ) := by
          rw [toSize_natCast (by omega)]
          omega
        rw [upperBound, List.takeWhile_cons_of_neg (by simpa [entry] using hbig)]
        rfl
      refine ⟨0, i, pb, fb, by rw [hcons, hnil], Row.cons hn hfb hrow, hplace, hle, fun m hm => ?_⟩
      obtain rfl : n = m := Option.some.inj (hn.symm.trans hm)
      omega

end Row

/-! ### The bytes of a row -/

section Read

variable {files : List (List UInt8)} {disk : Disk} {p stop i pb fb : ℕ} {es : List FileInfo}

/-- The content from a position of a file on. -/
theorem drop_flatten {file : List UInt8} (h : files[i]? = some file) {x : ℕ} (hx : x ≤ file.length) :
    files.flatten.drop (globalStart (files.map List.length) i + x) =
      file.drop x ++ files.flatten.drop (globalStart (files.map List.length) (i + 1)) := by
  obtain ⟨hi, rfl⟩ := List.getElem?_eq_some_iff.mp h
  unfold globalStart
  rw [← List.drop_drop, List.drop_sum_flatten, List.drop_sum_flatten,
    List.drop_eq_getElem_cons hi, List.flatten_cons, List.drop_append_of_le_length hx]

theorem readParts_zero (disk : Disk) (es : List FileInfo) (o : ℕ) : readParts disk es o 0 = .ok [] := by
  cases es with
  | nil => rfl
  | cons e es => rw [readParts, if_pos rfl]

/-- What the loop of `ReadPieceBlockFromFile` reads from a row of files: where a file is empty, it takes
all that is left from it, and gets zeros. -/
def readFiles : List (List UInt8) → ℕ → List UInt8
  | [], _ => []
  | file :: files, len =>
    if file = [] then List.replicate len 0 else file.take len ++ readFiles files (len - file.length)

theorem readFiles_zero (files : List (List UInt8)) : readFiles files 0 = [] := by
  induction files with
  | nil => rfl
  | cons file files ih =>
    rw [readFiles]
    split_ifs
    · rfl
    · rw [List.take_zero, Nat.zero_sub, ih, List.append_nil]

/-- Files that are not empty are read as they are. -/
theorem readFiles_of_ne_nil : ∀ {files : List (List UInt8)}, (∀ file ∈ files, file ≠ []) → ∀ len : ℕ,
    readFiles files len = files.flatten.take len
  | [], _, len => by rw [readFiles, List.flatten_nil, List.take_nil]
  | file :: files, hpos, len => by
    have ih := readFiles_of_ne_nil (fun f hf => hpos f (List.mem_cons_of_mem _ hf)) (len - file.length)
    rw [readFiles, if_neg (hpos file List.mem_cons_self), ih, List.flatten_cons, List.take_append]

/-- **The bytes of a row are read one after the other**, from a file that has bytes there or from the
front of a file. -/
theorem readParts_row (hdisk : ∀ i, disk i = files[i]?) (hsum : (files.map List.length).sum < 2 ^ 63)
    (h : Row (files.map List.length) p stop i pb fb es) : ∀ {o len : ℕ} {file : List UInt8},
    files[i]? = some file → (fb + o < file.length ∨ fb + o = 0) → pb + o + len ≤ stop →
    readParts disk es o len = .ok (readFiles (file.drop (fb + o) :: files.drop (i + 1)) len) := by
  -- what one entry reads
  have hpart : ∀ {i n fb o len : ℕ} {file : List UInt8} (pb : ℕ) (es : List FileInfo),
      files[i]? = some file → file.length = n → fb + o ≤ n → 0 < len →
      readParts disk (entry i p pb fb n :: es) o len =
        if file.drop (fb + o) = [] then do
          let next ← readParts disk es 0 0
          return readAt (fb + o) len file ++ next
        else do
          let next ← readParts disk es 0 (len - min (n - (fb + o)) len)
          return (file.drop (fb + o)).take (min (n - (fb + o)) len) ++ next := by
    intro i n fb o len file pb es hfile hn ho hlen
    subst hn
    have hn63 : file.length < 2 ^ 63 := by
      have hget : (files.map List.length)[i]? = some file.length := by simp [hfile]
      have hle := globalStart_le (files.map List.length) (i + 1)
      rw [globalStart_succ hget] at hle
      omega
    have h1 : toSize ((file.length : ℤ) - fb - o) = file.length - (fb + o) := by
      unfold toSize
      omega
    have h2 : toSize ((fb : ℤ) + o) = fb + o := by
      unfold toSize
      omega
    rw [readParts, if_neg (by omega)]
    simp only [entry, hdisk, hfile, h1, h2]
    split_ifs with hzero hnil hnil
    · rw [Nat.sub_self]
    · rw [List.drop_eq_nil_iff] at hnil
      omega
    · rw [List.drop_eq_nil_iff] at hnil
      omega
    · rw [readAt_eq_take (by omega)]
  -- a file that is read at its end is empty
  have hempty : ∀ {file : List UInt8} {x len : ℕ}, (x < file.length ∨ x = 0) → file.drop x = [] →
      readAt x len file = List.replicate len 0 := by
    intro file x len hx hnil
    rw [List.drop_eq_nil_iff] at hnil
    have hzero : file = [] := List.length_eq_zero_iff.mp (by omega)
    subst hzero
    simp [readAt]
  induction h with
  | @last i n pb fb hn hfb hstop =>
    intro o len file hfile ho hlen
    have hlength : file.length = n := by simpa [hfile] using hn
    rcases Nat.eq_zero_or_pos len with rfl | hpos
    · rw [readParts_zero, readFiles_zero]
    · have hnot : file.drop (fb + o) ≠ [] := by
        rw [ne_eq, List.drop_eq_nil_iff]
        omega
      have hmin : min (n - (fb + o)) len = len := by omega
      have hrest : len - (file.drop (fb + o)).length = 0 := by
        rw [List.length_drop]
        omega
      rw [hpart pb [] hfile hlength (by omega) hpos, if_neg hnot, hmin, Nat.sub_self, readFiles,
        if_neg hnot, hrest, readFiles_zero, List.append_nil]
      simp [readParts]
  | @cons i n pb fb es hn hfb hrow ih =>
    intro o len file hfile ho hlen
    have hlength : file.length = n := by simpa [hfile] using hn
    rcases Nat.eq_zero_or_pos len with rfl | hpos
    · rw [readParts_zero, readFiles_zero]
    obtain ⟨m, rest, hm, -⟩ := hrow.eq_cons
    obtain ⟨file', hfile', -⟩ : ∃ file, files[i + 1]? = some file ∧ file.length = m := by
      simpa using hm
    have hdrop : files.drop (i + 1) = file' :: files.drop (i + 2) := by
      obtain ⟨hi, rfl⟩ := List.getElem?_eq_some_iff.mp hfile'
      exact List.drop_eq_getElem_cons hi
    rw [hpart pb es hfile hlength (by omega) hpos, readFiles]
    split_ifs with hnil
    · rw [readParts_zero, hempty ho hnil]
      exact congrArg Except.ok (List.append_nil _)
    · rw [List.drop_eq_nil_iff] at hnil
      have hnext : readParts disk es 0 (len - min (n - (fb + o)) len) =
          .ok (readFiles (files.drop (i + 1)) (len - (file.drop (fb + o)).length)) := by
        rw [List.length_drop, hlength]
        rcases Nat.le_total len (n - (fb + o)) with hle | hle
        · rw [min_eq_right hle, Nat.sub_self, Nat.sub_eq_zero_of_le hle, readParts_zero, readFiles_zero]
        · rw [min_eq_left hle, ih hfile' (Or.inr rfl) (by omega), hdrop]
          rfl
      have htake : (file.drop (fb + o)).take (min (n - (fb + o)) len) =
          (file.drop (fb + o)).take len := by
        rw [List.take_eq_take_iff, List.length_drop]
        omega
      rw [hnext, htake]
      rfl

end Read

/-! ### The rows that `fill_files` computes -/

/-- The entries of the rest of a file are those of the pieces after the current one, in order. -/
theorem pieceIndex_spill {pl n : ℤ} {path : ℕ} : ∀ {fuel idx idx' : ℕ} {r r' fb : ℤ}
    {entries : List FileInfo}, spill pl path n fuel idx r fb = .ok (entries, idx', r') →
    ∃ k, idx' = idx + k ∧ entries.map FileInfo.pieceIndex = List.range' (idx + 1) k := by
  intro fuel
  induction fuel with
  | zero =>
    intro idx idx' r r' fb entries h
    rw [spill] at h
    split_ifs at h
    obtain ⟨rfl, rfl, -⟩ : [] = entries ∧ idx = idx' ∧ r = r' := by simpa using h
    exact ⟨0, rfl, rfl⟩
  | succ fuel ih =>
    intro idx idx' r r' fb entries h
    rw [spill] at h
    split_ifs at h
    · cases hs : spill pl path n fuel (idx + 1) (r - pl) (fb + pl) with
      | error f => simp [hs, bind, Except.bind] at h
      | ok res =>
        obtain ⟨rest, idx'', r''⟩ := res
        simp only [hs, bind, Except.bind, pure, Except.pure, Except.ok.injEq, Prod.mk.injEq] at h
        obtain ⟨rfl, rfl, rfl⟩ := h
        obtain ⟨k, rfl, hk⟩ := ih hs
        exact ⟨k + 1, by omega, by rw [List.map_cons, hk, List.range'_succ]⟩
    · obtain ⟨rfl, rfl, -⟩ : [] = entries ∧ idx = idx' ∧ r = r' := by simpa using h
      exact ⟨0, rfl, rfl⟩

/-- The entries of a file are those of the pieces from the current one to the one the cursor ends
in. -/
theorem pieceIndex_addFile {pl n b b' : ℤ} {fuel path c c' : ℕ} {entries : List FileInfo}
    (h : addFile fuel pl path n c b = .ok (entries, c', b')) :
    ∃ k, c' = c + k ∧ entries.map FileInfo.pieceIndex = List.range' c (k + 1) := by
  unfold addFile at h
  simp only at h
  split_ifs at h
  · obtain ⟨rfl, rfl, -⟩ : [_] = entries ∧ c = c' ∧ b + n = b' := by simpa using h
    exact ⟨0, rfl, rfl⟩
  · cases hs : spill pl path n fuel (c + 1) (n - (pl - b)) (pl - b) with
    | error f => simp [hs, bind, Except.bind] at h
    | ok res =>
      obtain ⟨rest, idx, r⟩ := res
      simp only [hs, bind, Except.bind, pure, Except.pure, Except.ok.injEq, Prod.mk.injEq] at h
      obtain ⟨rfl, rfl, rfl⟩ := h
      obtain ⟨k, rfl, hk⟩ := pieceIndex_spill hs
      refine ⟨k + 1, by omega, ?_⟩
      rw [List.map_cons, List.map_cons, hk, List.range'_succ, List.range'_succ]

/-- Among entries of different pieces there is one of a piece. -/
theorem entriesOf_eq_singleton {entries : List FileInfo} {e : FileInfo}
    (hnodup : (entries.map FileInfo.pieceIndex).Nodup) (he : e ∈ entries) :
    entriesOf e.pieceIndex entries = [e] := by
  induction entries with
  | nil => simp at he
  | cons e' entries ih =>
    rw [List.map_cons, List.nodup_cons] at hnodup
    obtain ⟨hnot, hnodup⟩ := hnodup
    rcases List.mem_cons.mp he with rfl | he
    · have hnil : entriesOf e.pieceIndex entries = [] := by
        refine List.filter_eq_nil_iff.mpr fun e'' he'' => ?_
        have hne : e''.pieceIndex ≠ e.pieceIndex := fun heq =>
          hnot (heq ▸ List.mem_map_of_mem he'')
        simpa using hne
      unfold entriesOf at hnil ⊢
      rw [List.filter_cons_of_pos (by simp), hnil]
    · have hne : e'.pieceIndex ≠ e.pieceIndex := fun heq =>
        hnot (heq ▸ List.mem_map_of_mem he)
      have hih := ih hnodup he
      unfold entriesOf at hih ⊢
      rw [List.filter_cons_of_neg (by simpa using hne), hih]

theorem entriesOf_eq_nil {entries : List FileInfo} {p : ℕ}
    (h : p ∉ entries.map FileInfo.pieceIndex) : entriesOf p entries = [] := by
  refine List.filter_eq_nil_iff.mpr fun e he => ?_
  have hne : e.pieceIndex ≠ p := fun heq => h (heq ▸ List.mem_map_of_mem he)
  simpa using hne

theorem entriesOf_append (p : ℕ) (es es' : List FileInfo) :
    entriesOf p (es ++ es') = entriesOf p es ++ entriesOf p es' := List.filter_append ..

/-- The entry of a file in a piece: in the piece the file starts in, it is at the cursor, and in a
later one at the start of the piece. -/
theorem place_of_isPart_pieceIndex {pl path n c b : ℕ} {e : FileInfo} (hb : b ≤ pl)
    (h : IsPart pl path n c b e) :
    ∃ pb fb, e = entry path e.pieceIndex pb fb n ∧ e.pieceIndex * pl + pb = c * pl + b + fb ∧ fb ≤ n ∧
      ((e.pieceIndex = c ∧ pb = b ∧ fb = 0) ∨ (c < e.pieceIndex ∧ pb = 0)) := by
  rcases h with rfl | ⟨hlen, k, hk, rfl⟩
  · exact ⟨b, 0, rfl, rfl, Nat.zero_le n, Or.inl ⟨rfl, rfl, rfl⟩⟩
  · refine ⟨0, pl - b + k * pl, rfl, ?_, by rcases hk with rfl | hk <;> omega, Or.inr ⟨?_, rfl⟩⟩
    · change (c + 1 + k) * pl + 0 = _
      rw [Nat.add_mul, Nat.add_mul, Nat.one_mul]
      omega
    · change c < c + 1 + k
      omega

theorem globalStart_of_drop {all lens : List ℕ} {path : ℕ} (h : all.drop path = lens) :
    globalStart all path + lens.sum = all.sum := by
  unfold globalStart
  rw [← h, ← List.sum_append, List.take_append_drop]

/-- **The entries of a piece are a row.** The files from number `path` on are added, with `c` whole
pieces and `b` bytes before them. -/
theorem addFiles_row {pl fuel : ℕ} (hpl : 0 < pl) (all : List ℕ)
    (hfuel : all.sum ≤ fuel) : ∀ (lens : List ℕ) (path c b : ℕ), all.drop path = lens → b ≤ pl →
    c * pl + b = globalStart all path → ∀ {entries c'' b''},
    addFiles fuel pl path (lens.map Nat.cast) c b = .ok (entries, c'', b'') → ∀ p,
      (p < c → entriesOf p entries = []) ∧
      (p = c → lens ≠ [] → Row all p (pieceLen pl all.sum p) path b 0 (entriesOf p entries)) ∧
      (c < p → (entriesOf p entries = [] ∧ all.sum ≤ p * pl) ∨
        ∃ i fb, p * pl = globalStart all i + fb ∧
          Row all p (pieceLen pl all.sum p) i 0 fb (entriesOf p entries)) := by
  intro lens
  induction lens with
  | nil =>
    intro path c b hdrop hb hcur entries c'' b'' hadd p
    obtain ⟨rfl, -⟩ : [] = entries ∧ c = c'' ∧ (b : ℤ) = b'' := by simpa [addFiles] using hadd
    refine ⟨fun _ => rfl, fun _ h => absurd rfl h, fun hp => Or.inl ⟨rfl, ?_⟩⟩
    have hsum := globalStart_of_drop hdrop
    have hle : (c + 1) * pl ≤ p * pl := Nat.mul_le_mul_right pl hp
    rw [Nat.add_mul, Nat.one_mul] at hle
    rw [List.sum_nil] at hsum
    omega
  | cons n lens ih =>
    intro path c b hdrop hb hcur entries c'' b'' hadd p
    have hget : all[path]? = some n := by
      rw [← List.head?_drop, hdrop, List.head?_cons]
    have hdrop' : all.drop (path + 1) = lens := by
      rw [← List.drop_drop, hdrop, List.drop_succ_cons, List.drop_zero]
    have hsum := globalStart_of_drop hdrop
    rw [List.sum_cons] at hsum
    obtain ⟨head, c', b', hfile, hcur', hb', -, hmem⟩ :=
      addFile_spec hpl path (c := c) hb (show n ≤ fuel by omega)
    obtain ⟨k, rfl, hidx⟩ := pieceIndex_addFile hfile
    obtain ⟨tail, hadds, rfl⟩ : ∃ tail, addFiles fuel pl (path + 1) (lens.map Nat.cast) (c + k) b' =
        .ok (tail, c'', b'') ∧ head ++ tail = entries := by
      simp only [List.map_cons, addFiles, hfile, bind, Except.bind] at hadd
      cases htail : addFiles fuel pl (path + 1) (lens.map Nat.cast) (c + k) b' with
      | error f => simp [htail] at hadd
      | ok res =>
        obtain ⟨tail, state⟩ := res
        simp only [htail, pure, Except.pure, Except.ok.injEq, Prod.mk.injEq] at hadd
        obtain ⟨rfl, rfl⟩ := hadd
        exact ⟨tail, rfl, rfl⟩
    have hstart : (c + k) * pl + b' = globalStart all (path + 1) := by
      rw [globalStart_succ hget, hcur', hcur]
    have hih := ih (path + 1) (c + k) b' hdrop' hb' hstart hadds
    -- the row that begins with the entry of this file
    have hrow : c ≤ p → p ≤ c + k → ∃ pb fb, p * pl + pb = c * pl + b + fb ∧
        ((p = c ∧ pb = b ∧ fb = 0) ∨ (c < p ∧ pb = 0)) ∧
        Row all p (pieceLen pl all.sum p) path pb fb (entriesOf p (head ++ tail)) := by
      intro hle hle'
      obtain ⟨e, he, rfl⟩ : ∃ e ∈ head, e.pieceIndex = p := by
        rw [← List.mem_map, hidx, List.mem_range'_1]
        omega
      obtain ⟨pb, fb, hentry, hplace, hfb, hcase⟩ :=
        place_of_isPart_pieceIndex hb ((hmem e).mp he)
      have hhead : entriesOf e.pieceIndex head = [entry path e.pieceIndex pb fb n] := by
        rw [← hentry]
        exact entriesOf_eq_singleton (hidx ▸ List.nodup_range') he
      refine ⟨pb, fb, hplace, hcase, ?_⟩
      rw [entriesOf_append, hhead]
      generalize e.pieceIndex = p at *
      rcases Nat.lt_or_ge p (c + k) with hlt | hge
      · -- the file goes on behind the piece
        rw [(hih p).1 hlt]
        refine Row.last hget hfb ?_
        have hend : (p + 1) * pl ≤ (c + k) * pl := Nat.mul_le_mul_right pl hlt
        rw [Nat.add_mul, Nat.one_mul] at hend
        unfold pieceLen
        omega
      · obtain rfl : p = c + k := by omega
        cases lens with
        | nil =>
          -- the last file
          obtain ⟨rfl, -⟩ : [] = tail ∧ c + k = c'' ∧ (b' : ℤ) = b'' := by
            simpa [addFiles] using hadds
          refine Row.last hget hfb ?_
          rw [List.sum_nil] at hsum
          unfold pieceLen
          omega
        | cons m lens =>
          have hnext := (hih (c + k)).2.1 rfl (List.cons_ne_nil m lens)
          have hb'' : b' = pb + (n - fb) := by omega
          exact Row.cons hget hfb (hb'' ▸ hnext)
    have hnot : p < c ∨ c + k < p → entriesOf p head = [] := by
      intro h
      refine entriesOf_eq_nil ?_
      rw [hidx, List.mem_range'_1]
      omega
    refine ⟨fun hp => ?_, fun hp _ => ?_, fun hp => ?_⟩
    · rw [entriesOf_append, hnot (Or.inl hp), (hih p).1 (by omega)]
      rfl
    · obtain ⟨pb, fb, -, ⟨-, rfl, rfl⟩ | ⟨hlt, -⟩, hrow⟩ := hrow hp.ge (by omega)
      · exact hrow
      · omega
    · rcases Nat.lt_or_ge (c + k) p with hlt | hge
      · rw [entriesOf_append, hnot (Or.inr hlt), List.nil_append]
        exact (hih p).2.2 hlt
      · obtain ⟨pb, fb, hplace, ⟨rfl, -⟩ | ⟨-, rfl⟩, hrow⟩ := hrow hp.le hge
        · omega
        · exact Or.inr ⟨path, fb, by omega, hrow⟩

/-! ### Reading a range of a piece -/

section Multi

variable {pl : ℕ} {files : List (List UInt8)} {disk : Disk}

/-- If the entries of a piece are a row, a range of it is read from the file that has its first byte
on. -/
theorem readPieceBlockFromFile_row {m : Manager} {p i fb begin_ len : ℕ}
    (hdisk : ∀ i, disk i = files[i]?) (hsum : (files.map List.length).sum < 2 ^ 63)
    (hrow : Row (files.map List.length) p (pieceLen pl (files.map List.length).sum p) i 0 fb
      (entriesOf p m.piecesByFiles))
    (hplace : p * pl = globalStart (files.map List.length) i + fb) (hlen : 0 < len)
    (hle : begin_ + len ≤ pieceLen pl (files.map List.length).sum p) :
    ∃ i' x file, files[i']? = some file ∧ x < file.length ∧
      globalStart (files.map List.length) i' + x = p * pl + begin_ ∧
      (readPieceBlockFromFile m disk p begin_ len).map Block.data =
        .ok (readFiles (file.drop x :: files.drop (i' + 1)) len) := by
  obtain ⟨it, i', pb, fb', hub, hrow', hplace', hpb, hin⟩ :=
    upperBound_row hsum (p * pl) hrow (by omega) hplace (Nat.zero_le begin_)
  obtain ⟨n, rest, hn, hcons⟩ := hrow'.eq_cons
  obtain ⟨file, hfile, hlength⟩ : ∃ file, files[i']? = some file ∧ file.length = n := by
    simpa using hn
  have hx := hin n hn
  have hne : entriesOf p m.piecesByFiles ≠ [] := by
    obtain ⟨n, rest, -, hcons⟩ := hrow.eq_cons
    rw [hcons]
    exact List.cons_ne_nil _ _
  have hbeg : toSize ((begin_ : ℤ) - (entry i' p pb fb' n).pieceBegin) = begin_ - pb := by
    have hle' : begin_ < 2 ^ 63 := by
      unfold pieceLen at hle
      omega
    change toSize ((begin_ : ℤ) - pb) = begin_ - pb
    unfold toSize
    omega
  have hlast : pb + (begin_ - pb) + len ≤ pieceLen pl (files.map List.length).sum p := by omega
  have hread := readParts_row hdisk hsum hrow' hfile (Or.inl (by omega)) hlast
  refine ⟨i', fb' + (begin_ - pb), file, hfile, by omega, by omega, ?_⟩
  rw [hcons] at hread
  unfold entriesOf at hub hcons hne
  unfold readPieceBlockFromFile
  simp only [hub, hcons, hbeg, hread, if_neg hne, Except.map, bind, Except.bind, pure, Except.pure]

/-- **The layout of any files**: the entries of a piece are a row, or the piece lies behind the
content. -/
theorem fillFiles_row (pl : ℕ) (hpl : 0 < pl) (lens : List ℕ) (sha1s : List UInt8) {fuel : ℕ}
    (hfuel : lens.sum ≤ fuel) :
    ∃ m, fillFiles fuel ⟨pl, none, lens.map Nat.cast, sha1s⟩ = .ok m ∧
      IsLayout pl lens.sum 0 0 lens m.piecesByFiles ∧
      ∀ p, (entriesOf p m.piecesByFiles = [] ∧ lens.sum ≤ p * pl) ∨
        ∃ i fb, p * pl = globalStart lens i + fb ∧
          Row lens p (pieceLen pl lens.sum p) i 0 fb (entriesOf p m.piecesByFiles) := by
  obtain ⟨entries, c', b', hadd, hlay, -⟩ := addFiles_spec hpl lens 0 0 0 hfuel (Nat.zero_le pl)
    (show 0 * pl + 0 + lens.sum = lens.sum by rw [Nat.zero_mul, Nat.zero_add])
  have hrows := addFiles_row hpl lens hfuel lens 0 0 0 rfl (Nat.zero_le pl) (by simp [globalStart]) hadd
  refine ⟨_, fillFiles_of_addFiles hadd sha1s, ?_, fun p => ?_⟩
  · simpa using hlay
  rcases Nat.eq_zero_or_pos p with rfl | hp
  · by_cases hnil : lens = []
    · left
      simp only [hnil, List.map_nil, addFiles, Except.ok.injEq, Prod.mk.injEq] at hadd
      dsimp only
      rw [← hadd.1, hnil]
      exact ⟨rfl, by simp⟩
    · exact Or.inr ⟨0, 0, by simp [globalStart], (hrows 0).2.1 rfl hnil⟩
  · exact (hrows p).2.2 hp

theorem map_length_cast (files : List (List UInt8)) :
    (files.map fun file => (file.length : ℤ)) = (files.map List.length).map Nat.cast := by
  rw [List.map_map]
  rfl

/-- **The layout of a multi-file torrent and its reads.** An entry stands for the same bytes of the
content in its file and in its piece, the entries of a piece are ordered, and a range of a piece is
read as it stands in the files, one after the other. -/
theorem fillFiles_read (pl : ℕ) (hpl : 0 < pl) (files : List (List UInt8))
    (hpos : ∀ file ∈ files, 0 < file.length) (hsum : (files.map List.length).sum < 2 ^ 63)
    (sha1s : List UInt8) (disk : Disk) (hdisk : ∀ i, disk i = files[i]?) :
    ∃ bound, ∀ fuel ≥ bound, ∃ m,
      fillFiles fuel ⟨pl, none, files.map fun file => (file.length : ℤ), sha1s⟩ = .ok m ∧
      (∀ e ∈ m.piecesByFiles, e.path < files.length ∧
        (globalStart (files.map List.length) e.path : ℤ) + e.fileBegin =
          e.pieceIndex * pl + e.pieceBegin) ∧
      (∀ p, (m.piecesByFiles.filter fun e => e.pieceIndex = p).Pairwise
        fun e e' => e.pieceBegin ≤ e'.pieceBegin) ∧
      ∀ p begin_ len, p < ((files.map List.length).sum + pl - 1) / pl → 1 ≤ len →
        begin_ + len ≤ min pl ((files.map List.length).sum - p * pl) →
        (readPieceBlockFromFile m disk p begin_ len).map Block.data =
          .ok ((files.flatten.drop (p * pl + begin_)).take len) := by
  refine ⟨(files.map List.length).sum, fun fuel hfuel => ?_⟩
  have hne : ∀ file ∈ files, file ≠ [] := fun file hfile => List.length_pos_iff.mp (hpos file hfile)
  obtain ⟨m, hfill, hlay, hrow⟩ := fillFiles_row pl hpl (files.map List.length) sha1s hfuel
  rw [← map_length_cast] at hfill
  refine ⟨m, hfill, fun e he => ?_, fun p => ?_, fun p begin_ len hp hlen hle => ?_⟩
  · obtain ⟨i, n, p, pb, fb, hi, rfl, hplace, -⟩ := hlay.place e he
    rw [Nat.zero_add]
    have hlt : i < files.length := by simpa using (List.getElem?_eq_some_iff.mp hi).1
    have hplace' : globalStart (files.map List.length) i + fb = p * pl + pb := by
      unfold globalStart
      omega
    refine ⟨hlt, ?_⟩
    change ((globalStart (files.map List.length) i : ℕ) : ℤ) + (fb : ℤ) = (p : ℤ) * pl + pb
    exact_mod_cast hplace'
  · rcases hrow p with ⟨hnil, -⟩ | ⟨i, fb, -, hrow⟩
    · unfold entriesOf at hnil
      rw [hnil]
      exact List.Pairwise.nil
    · exact hrow.pairwise
  · rcases hrow p with ⟨-, hend⟩ | ⟨i, fb, hplace, hrow⟩
    · omega
    · obtain ⟨i', x, file, hfile, hx, hstart, hread⟩ :=
        readPieceBlockFromFile_row hdisk hsum hrow hplace hlen hle
      -- no file after the first one is empty
      have hall : ∀ f ∈ file.drop x :: files.drop (i' + 1), f ≠ [] := by
        intro f hf
        rcases List.mem_cons.mp hf with rfl | hf
        · rw [ne_eq, List.drop_eq_nil_iff]
          omega
        · exact hne f (List.mem_of_mem_drop hf)
      have hflatten : (files.drop (i' + 1)).flatten =
          files.flatten.drop (globalStart (files.map List.length) (i' + 1)) := by
        rw [globalStart, List.drop_sum_flatten]
      rw [hread, readFiles_of_ne_nil hall, List.flatten_cons, hflatten, ← drop_flatten hfile hx.le,
        hstart]

end Multi

/-- Files of two, one and three bytes with pieces of two bytes: the first file ends with the first
piece, and the second piece has an entry at its end. -/
theorem fillFiles_read_boundary :
    ∃ bound, ∀ fuel ≥ bound, ∃ m, fillFiles fuel ⟨2, none, [2, 1, 3], []⟩ = .ok m ∧
      (readPieceBlockFromFile m (fun i => [[10, 20], [30], [40, 50, 60]][i]?) 1 0 2).map Block.data =
        .ok [30, 40] := by
  obtain ⟨bound, h⟩ := fillFiles_read 2 (by decide) [[10, 20], [30], [40, 50, 60]] (by decide)
    (by decide) [] (fun i => [[10, 20], [30], [40, 50, 60]][i]?) (fun _ => rfl)
  refine ⟨bound, fun fuel hfuel => ?_⟩
  obtain ⟨m, hm, -, -, hread⟩ := h fuel hfuel
  exact ⟨m, hm, hread 1 0 2 (by decide) (by decide) (by decide)⟩

end CppTorrent.Files.Reading
