import CppTorrent.Files.Storage

/-! # Where the files of a multi-file torrent lie

For a positive piece length and positive file lengths, `fill_files` goes through the files with a
cursor: `c` whole pieces and `b` bytes of the next one lie before the file, with `b ≤ pieceLength`. A
file ends at a cursor with `b = 0` only if it ends exactly where the piece it starts in ends; at
every other piece boundary the cursor has `b = pieceLength`.

`addFile_spec` gives the entries of one file: one in the piece it starts in, and, if it does not end
before that piece does, one for each further piece it starts to fill (and one for the next piece if
it ends exactly with the first). Every entry has the size of the whole file, so `WritePieceToFile`
copies the window `window` of the content, and this may reach past the end of the file. `FileFits`
says when it does not. -/

namespace CppTorrent.Files.Layout

open CppTorrent.Files.Blocks CppTorrent.Files.Storage CppTorrent.Lib.ByteFile

/-- An entry with natural numbers. -/
def entry (path p pb fb n : ℕ) : FileInfo := ⟨path, p, pb, fb, n⟩

/-! ### The entries of one file -/

/-- The rest of a file that goes over whole pieces. -/
theorem spill_spec {pl : ℕ} (hpl : 0 < pl) (path n : ℕ) : ∀ (fuel idx r fb : ℕ), r ≤ fuel →
    ∃ entries idx' r', spill pl path n fuel idx r fb = .ok (entries, idx', ((r' : ℕ) : ℤ)) ∧
      idx' * pl + r' = idx * pl + r ∧ r' ≤ pl ∧ (0 < r → 0 < r') ∧
      ∀ e, e ∈ entries ↔ ∃ k, 0 < k ∧ k * pl < r ∧ e = entry path (idx + k) 0 (fb + k * pl) n := by
  intro fuel
  induction fuel with
  | zero =>
    intro idx r fb hr
    have hr0 : r = 0 := by omega
    subst hr0
    refine ⟨[], idx, 0, ?_, by omega, by omega, by omega, fun e => ?_⟩
    · rw [spill, if_neg (by omega)]
    · simp
  | succ fuel ih =>
    intro idx r fb hr
    by_cases hlt : pl < r
    · obtain ⟨entries, idx', r', hs, hsum, hle, hpos, hmem⟩ :=
        ih (idx + 1) (r - pl) (fb + pl) (by omega)
      refine ⟨entry path (idx + 1) 0 (fb + pl) n :: entries, idx', r', ?_, ?_, hle, ?_, fun e => ?_⟩
      · rw [spill, if_pos (by omega)]
        have h1 : (r : ℤ) - pl = ((r - pl : ℕ) : ℤ) := by omega
        have h2 : (fb : ℤ) + pl = ((fb + pl : ℕ) : ℤ) := by omega
        simp only [h1, h2, hs]
        rfl
      · rw [hsum, Nat.add_mul, Nat.one_mul]
        omega
      · intro _
        exact hpos (by omega)
      · rw [List.mem_cons, hmem]
        constructor
        · rintro (rfl | ⟨k, hk, hkr, rfl⟩)
          · exact ⟨1, by omega, by omega, by rw [Nat.one_mul]⟩
          · refine ⟨k + 1, by omega, ?_, ?_⟩
            · rw [Nat.add_mul, Nat.one_mul]
              omega
            · rw [Nat.add_mul, Nat.one_mul, Nat.add_assoc, Nat.add_comm 1 k, Nat.add_assoc,
                Nat.add_comm pl]
        · rintro ⟨k, hk, hkr, rfl⟩
          obtain ⟨k, rfl⟩ : ∃ k', k = k' + 1 := ⟨k - 1, by omega⟩
          rw [Nat.add_mul, Nat.one_mul] at hkr
          rcases Nat.eq_zero_or_pos k with rfl | hk0
          · left
            simp [entry]
          · right
            refine ⟨k, hk0, by omega, ?_⟩
            rw [Nat.add_mul, Nat.one_mul, Nat.add_assoc, Nat.add_comm 1 k, Nat.add_assoc,
              Nat.add_comm pl]
    · refine ⟨[], idx, r, ?_, rfl, by omega, fun h => h, fun e => ?_⟩
      · rw [spill, if_neg (by omega)]
      · simp only [List.not_mem_nil, false_iff, not_exists, not_and]
        intro k hk hkr
        have : pl ≤ k * pl := Nat.le_mul_of_pos_left pl hk
        omega

/-- The `k`-th of the further entries of a file, for a cursor `c`, `b`. -/
def further (pl path n c b k : ℕ) : FileInfo := entry path (c + 1 + k) 0 (pl - b + k * pl) n

/-- The entries of a file of length `n`, for a cursor `c`, `b`. -/
def IsPart (pl path n c b : ℕ) (e : FileInfo) : Prop :=
  e = entry path c b 0 n ∨
    (pl ≤ b + n ∧ ∃ k, (k = 0 ∨ pl - b + k * pl < n) ∧ e = further pl path n c b k)

/-- **The entries of a file and the cursor after it.** -/
theorem addFile_spec {pl : ℕ} (hpl : 0 < pl) (path : ℕ) {n c b fuel : ℕ} (hb : b ≤ pl)
    (hf : n ≤ fuel) :
    ∃ entries c' b', addFile fuel pl path n c b = .ok (entries, c', ((b' : ℕ) : ℤ)) ∧
      c' * pl + b' = c * pl + b + n ∧ b' ≤ pl ∧ (0 < n → b' = 0 → b + n = pl) ∧
      ∀ e, e ∈ entries ↔ IsPart pl path n c b e := by
  unfold addFile
  by_cases hlt : b + n < pl
  · refine ⟨[entry path c b 0 n], c, b + n, ?_, by omega, by omega, by omega, fun e => ?_⟩
    · simp only
      rw [if_pos (by omega)]
      simp [entry]
    · rw [List.mem_singleton, IsPart, or_iff_left (by omega)]
  · obtain ⟨entries, c', b', hs, hsum, hle, hpos, hmem⟩ :=
      spill_spec hpl path n fuel (c + 1) (n - (pl - b)) (pl - b) (by omega)
    refine ⟨entry path c b 0 n :: further pl path n c b 0 :: entries, c', b', ?_, ?_, hle, ?_,
      fun e => ?_⟩
    · simp only
      rw [if_neg (by omega)]
      have h1 : (pl : ℤ) - b = ((pl - b : ℕ) : ℤ) := by omega
      have h2 : (n : ℤ) - ((pl - b : ℕ) : ℤ) = ((n - (pl - b) : ℕ) : ℤ) := by omega
      rw [h1, h2, hs]
      simp [entry, further]
    · rw [hsum, Nat.add_mul, Nat.one_mul]
      omega
    · intro _ h0
      by_contra hne
      have := hpos (by omega)
      omega
    · rw [List.mem_cons, List.mem_cons, hmem, IsPart]
      refine or_congr_right ?_
      constructor
      · rintro (rfl | ⟨k, hk, hkr, rfl⟩)
        · exact ⟨by omega, 0, Or.inl rfl, rfl⟩
        · exact ⟨by omega, k, Or.inr (by omega), rfl⟩
      · rintro ⟨-, k, hk, rfl⟩
        rcases Nat.eq_zero_or_pos k with rfl | hk0
        · exact Or.inl rfl
        · exact Or.inr ⟨k, hk0, by omega, rfl⟩

/-! ### The window an entry writes -/

/-- The length of a piece. -/
def pieceLen (pl total p : ℕ) : ℕ := min pl (total - p * pl)

/-- The positions of its file to which an entry makes `WritePieceToFile` write. -/
def window (pl total : ℕ) (e : FileInfo) : Window :=
  ⟨e.fileBegin.toNat, min (pieceLen pl total e.pieceIndex - e.pieceBegin.toNat) e.size.toNat⟩

@[simp] theorem window_entry (pl total path p pb fb n : ℕ) :
    window pl total (entry path p pb fb n) = ⟨fb, min (pieceLen pl total p - pb) n⟩ := by
  simp [window, entry]

/-- The window of an entry does not reach past the end of a file of length `n`. -/
def Within (pl total n : ℕ) (e : FileInfo) : Prop :=
  (window pl total e).size = 0 ∨ (window pl total e).start + (window pl total e).size ≤ n

/-- A file of length `n` that starts at position `start` and is not the last one: it ends inside the
piece it starts in, or with a piece. In the second case it starts with a piece other than the first,
or does not end in the piece it starts in. -/
def FileFits (pl start n : ℕ) : Prop :=
  start % pl + n < pl ∨ (pl ∣ start + n ∧ ((0 < start ∧ pl ∣ start) ∨ 2 * pl ≤ start % pl + n))

section Part

variable {pl total path n c b : ℕ} {e : FileInfo}

/-- An entry stands for the same bytes of the content in its piece and in its file. -/
theorem place_of_isPart (hb : b ≤ pl) (h : IsPart pl path n c b e) :
    ∃ p pb fb, e = entry path p pb fb n ∧ p * pl + pb = c * pl + b + fb ∧ pb ≤ pl ∧
      (pb = 0 ∨ fb = 0) := by
  rcases h with rfl | ⟨-, k, -, rfl⟩
  · exact ⟨c, b, 0, rfl, rfl, hb, Or.inr rfl⟩
  · refine ⟨c + 1 + k, 0, pl - b + k * pl, rfl, ?_, by omega, Or.inl rfl⟩
    rw [Nat.add_mul, Nat.add_mul, Nat.one_mul]
    omega

/-- The entries of a file cover it. -/
theorem cover_of_isPart (path : ℕ) (hpl : 0 < pl) (hb : b ≤ pl) (hn : c * pl + b + n ≤ total) {x : ℕ}
    (hx : x < n) :
    ∃ e, IsPart pl path n c b e ∧ e.pieceIndex * pl < total ∧ (window pl total e).Holds x := by
  by_cases hfirst : x < pl - b
  · refine ⟨_, Or.inl rfl, by change c * pl < total; omega, ?_⟩
    rw [window_entry]
    refine ⟨Nat.zero_le x, ?_⟩
    simp only [pieceLen]
    omega
  · set k := (x - (pl - b)) / pl with hk
    have hdiv := Nat.div_add_mod (x - (pl - b)) pl
    have hmod := Nat.mod_lt (x - (pl - b)) hpl
    rw [← hk, Nat.mul_comm] at hdiv
    have hp : (c + 1 + k) * pl = c * pl + b + (pl - b + k * pl) := by
      rw [Nat.add_mul, Nat.add_mul, Nat.one_mul]
      omega
    refine ⟨further pl path n c b k, Or.inr ⟨by omega, k, Or.inr (by omega), rfl⟩, ?_, ?_⟩
    · change (c + 1 + k) * pl < total
      omega
    · rw [further, window_entry]
      constructor
      · change pl - b + k * pl ≤ x
        omega
      · simp only [pieceLen, hp]
        omega

/-- The entries of the last file stay within it. -/
theorem within_last (hb : b ≤ pl) (hn : c * pl + b + n = total) (h : IsPart pl path n c b e) :
    Within pl total n e := by
  obtain ⟨p, pb, fb, rfl, hp, -, hz⟩ := place_of_isPart hb h
  unfold Within
  rw [window_entry]
  simp only [pieceLen]
  rcases hz with rfl | rfl <;> omega

/-- The entries of a file that is not the last one stay within it exactly if it ends before the piece
it starts in does, or with a piece, but not with the one it starts in. -/
theorem within_iff (hpl : 0 < pl) (hb : b ≤ pl) (hn0 : 0 < n) (hn : c * pl + b + n < total) :
    (∀ e, IsPart pl path n c b e → e.pieceIndex * pl < total → Within pl total n e) ↔
      b + n < pl ∨ (b = pl ∧ n < pl) ∨ (pl ∣ b + n ∧ (b = pl ∨ 2 * pl ≤ b + n)) := by
  -- what a further entry needs
  have key : ∀ k, (k = 0 ∨ pl - b + k * pl < n) → pl ≤ b + n →
      (further pl path n c b k).pieceIndex * pl < total ∧
      (Within pl total n (further pl path n c b k) ↔
        pl - b + k * pl + pl ≤ n ∨ pl - b + k * pl = 0) := by
    intro k hk hlen
    have hp : (c + 1 + k) * pl = c * pl + b + (pl - b + k * pl) := by
      rw [Nat.add_mul, Nat.add_mul, Nat.one_mul]
      omega
    have hfb : pl - b + k * pl ≤ n := by
      rcases hk with rfl | hk <;> omega
    refine ⟨by change (c + 1 + k) * pl < total; omega, ?_⟩
    unfold Within
    rw [further, window_entry]
    simp only [pieceLen, hp]
    omega
  constructor
  · intro h
    by_cases hlt : b + n < pl
    · exact Or.inl hlt
    by_cases hshort : b = pl ∧ n < pl
    · exact Or.inr (Or.inl hshort)
    -- the first further entry ends within the file
    have hr : pl - b + pl ≤ n := by
      obtain ⟨hp, hw⟩ := key 0 (Or.inl rfl) (by omega)
      have := hw.mp (h _ (Or.inr ⟨by omega, 0, Or.inl rfl, rfl⟩) hp)
      omega
    refine Or.inr (Or.inr ⟨?_, by omega⟩)
    -- the last further entry ends with it
    set k := (n - (pl - b) - 1) / pl with hk
    have hdiv := Nat.div_add_mod (n - (pl - b) - 1) pl
    have hmod := Nat.mod_lt (n - (pl - b) - 1) hpl
    rw [← hk, Nat.mul_comm] at hdiv
    have hvalid : k = 0 ∨ pl - b + k * pl < n := Or.inr (by omega)
    obtain ⟨hp, hw⟩ := key k hvalid (by omega)
    have hwithin := hw.mp (h _ (Or.inr ⟨by omega, k, hvalid, rfl⟩) hp)
    refine ⟨k + 2, ?_⟩
    rw [Nat.mul_comm, Nat.add_mul]
    omega
  · rintro h e (rfl | ⟨hlen, k, hk, rfl⟩) hp
    · unfold Within
      rw [window_entry]
      simp only
      omega
    · rw [(key k hk hlen).2]
      rcases h with h | ⟨rfl, h⟩ | ⟨⟨q, hq⟩, h⟩
      · omega
      · rcases Nat.eq_zero_or_pos k with rfl | hk0
        · right
          omega
        · have := Nat.le_mul_of_pos_left b hk0
          omega
      · rcases hk with rfl | hk
        · omega
        · left
          have hlt : (k + 1) * pl < q * pl := by
            rw [Nat.mul_comm q, ← hq, Nat.add_mul, Nat.one_mul]
            omega
          have hle := Nat.mul_le_mul_right pl (Nat.lt_of_mul_lt_mul_right hlt)
          rw [Nat.mul_comm q, ← hq, Nat.succ_mul, Nat.add_mul, Nat.one_mul] at hle
          omega

/-- The same, by the position of the file; a cursor with `b = 0` stands only before the first
file. -/
theorem within_iff_fileFits (path : ℕ) (hpl : 0 < pl) (hb : b ≤ pl) (hb0 : b = 0 → c = 0) (hn0 : 0 < n)
    (hn : c * pl + b + n < total) :
    (∀ e, IsPart pl path n c b e → e.pieceIndex * pl < total → Within pl total n e) ↔
      FileFits pl (c * pl + b) n := by
  rw [within_iff hpl hb hn0 hn, FileFits]
  rcases Nat.lt_or_ge b pl with hlt | hge
  · have hmod : (c * pl + b) % pl = b := by
      rw [Nat.mul_comm, Nat.mul_add_mod, Nat.mod_eq_of_lt hlt]
    have hdvd : pl ∣ c * pl + b + n ↔ pl ∣ b + n := by
      rw [Nat.add_assoc]
      exact Nat.dvd_add_right (Nat.dvd_mul_left pl c)
    have hdvd' : pl ∣ c * pl + b ↔ b = 0 := by
      rw [Nat.dvd_add_right (Nat.dvd_mul_left pl c)]
      exact ⟨fun h => Nat.eq_zero_of_dvd_of_lt h hlt, fun h => h ▸ Nat.dvd_zero pl⟩
    rw [hmod, hdvd, hdvd']
    have hstart : ¬ (0 < c * pl + b ∧ b = 0) := by
      rintro ⟨h1, h2⟩
      rw [hb0 h2, h2] at h1
      omega
    have hne : b ≠ pl := by omega
    simp only [hstart, hne, false_and, false_or]
  · obtain rfl : b = pl := by omega
    have hmod : (c * b + b) % b = 0 := by
      rw [← Nat.succ_mul, Nat.mul_mod_left]
    have hdvd : b ∣ c * b + b + n ↔ b ∣ b + n := by
      rw [Nat.add_assoc]
      exact Nat.dvd_add_right (Nat.dvd_mul_left b c)
    have hdvd' : b ∣ c * b + b := by
      rw [← Nat.succ_mul]
      exact Nat.dvd_mul_left b _
    have hpos : 0 < c * b + b := by omega
    rw [hmod, hdvd]
    simp only [hdvd', hpos, and_self, true_or, and_true, true_and, Nat.zero_add]
    omega

end Part

/-! ### The entries of all files -/

/-- Every file but the last one fits, for files that start at position `start`. -/
def Fits (pl : ℕ) : ℕ → List ℕ → Prop
  | _, [] => True
  | _, [_] => True
  | start, n :: m :: lens => FileFits pl start n ∧ Fits pl (start + n) (m :: lens)

/-- What is known of the entries of files of lengths `lens`, numbered from `path` on, the first of
which starts at position `start`. -/
structure IsLayout (pl total path start : ℕ) (lens : List ℕ) (entries : List FileInfo) : Prop where
  /-- an entry stands for the same bytes in its piece and in its file -/
  place : ∀ e ∈ entries, ∃ i n p pb fb, lens[i]? = some n ∧ e = entry (path + i) p pb fb n ∧
    p * pl + pb = start + (lens.take i).sum + fb ∧ pb ≤ pl ∧ (pb = 0 ∨ fb = 0)
  /-- the entries cover the files -/
  cover : ∀ i n, lens[i]? = some n → ∀ x < n, ∃ e ∈ entries, e.path = path + i ∧
    e.pieceIndex * pl < total ∧ (window pl total e).Holds x

/-- No entry that is used reaches past the end of its file. -/
def AllWithin (pl total : ℕ) (entries : List FileInfo) : Prop :=
  ∀ e ∈ entries, e.pieceIndex * pl < total → Within pl total e.size.toNat e

theorem within_isPart_iff {pl total path n c b : ℕ} {entries : List FileInfo}
    (hmem : ∀ e, e ∈ entries ↔ IsPart pl path n c b e) (hb : b ≤ pl) :
    AllWithin pl total entries ↔
      ∀ e, IsPart pl path n c b e → e.pieceIndex * pl < total → Within pl total n e := by
  refine forall_congr' fun e => ?_
  rw [hmem]
  refine forall_congr' fun he => ?_
  obtain ⟨p, pb, fb, rfl, -⟩ := place_of_isPart hb he
  rfl

/-- **The layout that `fill_files` computes**, and that its windows stay within the files exactly if
the files fit. -/
theorem addFiles_spec {pl total fuel : ℕ} (hpl : 0 < pl) : ∀ (lens : List ℕ) (path c b : ℕ),
    lens.sum ≤ fuel → b ≤ pl → c * pl + b + lens.sum = total →
    ∃ entries c' b', addFiles fuel pl path (lens.map Nat.cast) c b =
        .ok (entries, c', ((b' : ℕ) : ℤ)) ∧
      IsLayout pl total path (c * pl + b) lens entries ∧
      ((∀ n ∈ lens, 0 < n) → (b = 0 → c = 0) →
        (AllWithin pl total entries ↔ Fits pl (c * pl + b) lens))
  | [], path, c, b, _, _, _ => by
    refine ⟨[], c, b, rfl, ⟨by simp, by simp⟩, fun _ _ => ?_⟩
    simp [AllWithin, Fits]
  | n :: lens, path, c, b, hf, hb, ht => by
    rw [List.sum_cons] at hf ht
    obtain ⟨head, c', b', hadd, hcur, hb', hb0', hmem⟩ :=
      addFile_spec hpl path (c := c) hb (show n ≤ fuel by omega)
    obtain ⟨tail, c'', b'', hadds, hlay, hfits⟩ :=
      addFiles_spec hpl lens (path + 1) c' b' (show lens.sum ≤ fuel by omega) hb'
        (show c' * pl + b' + lens.sum = total by omega)
    rw [hcur] at hlay hfits
    refine ⟨head ++ tail, c'', b'', ?_, ⟨fun e he => ?_, fun i m hm x hx => ?_⟩,
      fun hpos hb0 => ?_⟩
    · simp only [List.map_cons, addFiles, hadd, hadds, bind, Except.bind, pure, Except.pure]
    · rcases List.mem_append.mp he with he | he
      · obtain ⟨p, pb, fb, rfl, hp, hle, hz⟩ := place_of_isPart hb ((hmem e).mp he)
        exact ⟨0, n, p, pb, fb, rfl, rfl, by simpa using hp, hle, hz⟩
      · obtain ⟨i, m, p, pb, fb, hi, rfl, hp, hle, hz⟩ := hlay.place e he
        refine ⟨i + 1, m, p, pb, fb, by simpa using hi, by rw [Nat.add_assoc, Nat.add_comm 1], ?_,
          hle, hz⟩
        rw [List.take_succ_cons, List.sum_cons]
        omega
    · cases i with
      | zero =>
        obtain rfl : n = m := by simpa using hm
        obtain ⟨e, he, hp, hh⟩ := cover_of_isPart path hpl hb
          (show c * pl + b + n ≤ total by omega) hx
        refine ⟨e, List.mem_append_left _ ((hmem e).mpr he), ?_, hp, hh⟩
        obtain ⟨p, pb, fb, rfl, -⟩ := place_of_isPart hb he
        rfl
      | succ i =>
        obtain ⟨e, he, hpath, hp, hh⟩ := hlay.cover i m (by simpa using hm) x hx
        exact ⟨e, List.mem_append_right _ he, by omega, hp, hh⟩
    · have hn := hpos n (by simp)
      have hsplit : AllWithin pl total (head ++ tail) ↔
          AllWithin pl total head ∧ AllWithin pl total tail := by
        simp only [AllWithin, List.mem_append, or_imp, forall_and]
      rw [hsplit, within_isPart_iff hmem hb]
      cases lens with
      | nil =>
        -- the last file
        obtain ⟨rfl, -⟩ : tail = [] ∧ c' = c'' ∧ b' = b'' := by
          simpa [addFiles] using hadds
        simp only [List.sum_nil, Nat.add_zero] at ht
        simp only [Fits, iff_true]
        exact ⟨fun e he _ => within_last hb ht he, by simp [AllWithin]⟩
      | cons m lens =>
        have hm := hpos m (by simp)
        rw [List.sum_cons] at ht
        have hlt : c * pl + b + n < total := by omega
        rw [Fits, ← within_iff_fileFits path hpl hb hb0 hn hlt]
        refine and_congr_right fun hwithin => hfits (fun k hk => hpos k (by simp [hk])) fun h0 => ?_
        -- a file that fits does not end with the piece it starts in
        have hend := hb0' hn h0
        rcases (within_iff hpl hb hn hlt).mp hwithin with hfit | hfit | ⟨-, hfit⟩ <;> omega

/-- What `fill_files` makes of the loop over the files. -/
theorem fillFiles_of_addFiles {pl fuel c' b' : ℕ} {lens : List ℕ} {entries : List FileInfo}
    (hadd : addFiles fuel pl 0 (lens.map Nat.cast) 0 ((0 : ℕ) : ℤ) = .ok (entries, c', ((b' : ℕ) : ℤ)))
    (sha1s : List UInt8) : fillFiles fuel ⟨pl, none, lens.map Nat.cast, sha1s⟩ =
      .ok ⟨toSize pl, toSize b', entries⟩ := by
  simp only [fillFiles]
  rw [show ((0 : ℕ) : ℤ) = 0 from rfl] at hadd
  rw [hadd]
  rfl

end CppTorrent.Files.Layout
