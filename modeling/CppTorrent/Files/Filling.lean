import CppTorrent.Files.Storage
import CppTorrent.Lib.Fallible

/-! # `fill_files` on any numbers

`Files.Storage` computes with integers. Here the numbers are `long long`s, as in the code: what an
addition or a remainder does that overflows is a parameter, since the language leaves it open, and
`fill_files` returns if it does so whatever an overflow does. If it returns without an overflow, it
returns what is computed with integers (`fillFiles_of_stop`).

For a positive piece length only the sum of the cursor and the length of a file can overflow, and the
inner loop brings the cursor down to a piece. For any other piece length the loop never ends once it
has begun (`spill_returned`). So it must not begin: all sums of lengths stay below the piece length.
A remainder needs a piece length that is not zero. These conditions are exact (`returns_iff`). -/

namespace CppTorrent.Files.Filling

open CppTorrent.Files.Storage CppTorrent.Lib.Fallible

/-! ### Signed numbers -/

/-- The range of a `long long`. -/
def InLong (z : ℤ) : Prop := -2 ^ 63 ≤ z ∧ z < 2 ^ 63

instance (z : ℤ) : Decidable (InLong z) := inferInstanceAs (Decidable (_ ∧ _))

/-- What an overflow does, given the exact result: it gives some number or does not return. -/
abbrev Overflow : Type := ℤ → Except Fault ℤ

/-- The result of an addition or a subtraction. -/
def signed (ovf : Overflow) (z : ℤ) : Except Fault ℤ := if InLong z then .ok z else ovf z

/-- The result of `%`, which overflows if the quotient does. -/
def remainder (ovf : Overflow) (a b : ℤ) : Except Fault ℤ :=
  if b = 0 then .error .divisionByZero
  else if InLong (a.tdiv b) then .ok (a.tmod b) else ovf (a.tdiv b)

/-- The numbers of an info dictionary are `long long`s. -/
structure Longs (info : Info) : Prop where
  pieceLength : InLong info.pieceLength
  length : ∀ n ∈ info.length, InLong n
  files : ∀ n ∈ info.files, InLong n

/-! ### `fill_files` -/

section FillFiles

variable (ovf : Overflow) (opens : ℕ → Bool)

/-- A file that cannot be opened is created: the code seeks to its last byte. -/
def seekEnd (path : ℕ) (bytesSize : ℤ) : Except Fault Unit :=
  if opens path then .ok () else (signed ovf (bytesSize - 1)).map fun _ => ()

/-- The inner loop of the multi-file branch. -/
def spillLong (pieceLength : ℤ) (path : ℕ) (bytesSize : ℤ) :
    ℕ → ℕ → ℤ → ℤ → Except Fault (List FileInfo × ℕ × ℤ)
  | fuel, curPieceIndex, curPieceBegin, fileBeg =>
    if pieceLength < curPieceBegin then
      match fuel with
      | 0 => .error .timeout
      | fuel + 1 => do
        let curPieceBegin ← signed ovf (curPieceBegin - pieceLength)
        let fileBeg ← signed ovf (fileBeg + pieceLength)
        let (rest, state) ← spillLong pieceLength path bytesSize fuel (curPieceIndex + 1)
          curPieceBegin fileBeg
        return (⟨path, curPieceIndex + 1, 0, fileBeg, bytesSize⟩ :: rest, state)
    else .ok ([], curPieceIndex, curPieceBegin)

/-- One file of the multi-file branch. -/
def addFileLong (fuel : ℕ) (pieceLength : ℤ) (path : ℕ) (bytesSize : ℤ) (curPieceIndex : ℕ)
    (curPieceBegin : ℤ) : Except Fault (List FileInfo × ℕ × ℤ) := do
  seekEnd ovf opens path bytesSize
  let first : FileInfo := ⟨path, curPieceIndex, curPieceBegin, 0, bytesSize⟩
  let fileEnd ← signed ovf (curPieceBegin + bytesSize)
  if fileEnd < pieceLength then
    return ([first], curPieceIndex, fileEnd)
  else
    let fileBeg ← signed ovf (pieceLength - curPieceBegin)
    let curPieceBegin ← signed ovf (bytesSize - fileBeg)
    let (rest, state) ← spillLong ovf pieceLength path bytesSize fuel (curPieceIndex + 1)
      curPieceBegin fileBeg
    return (first :: ⟨path, curPieceIndex + 1, 0, fileBeg, bytesSize⟩ :: rest, state)

/-- The loop over the files. -/
def addFilesLong (fuel : ℕ) (pieceLength : ℤ) : ℕ → List ℤ → ℕ → ℤ →
    Except Fault (List FileInfo × ℕ × ℤ)
  | _, [], curPieceIndex, curPieceBegin => .ok ([], curPieceIndex, curPieceBegin)
  | path, bytesSize :: files, curPieceIndex, curPieceBegin => do
    let (entries, curPieceIndex, curPieceBegin) ←
      addFileLong ovf opens fuel pieceLength path bytesSize curPieceIndex curPieceBegin
    let (rest, state) ← addFilesLong fuel pieceLength (path + 1) files curPieceIndex curPieceBegin
    return (entries ++ rest, state)

/-- `TorrentFilesManager::fill_files`. -/
def fillFilesLong (fuel : ℕ) (info : Info) : Except Fault Manager :=
  let pieceSize := toSize info.pieceLength
  match info.length with
  | some bytesSize => do
    seekEnd ovf opens 0 bytesSize
    let (entries, fileBeg) := singleLoop pieceSize info.pieceCount 0 0
    let lastPieceSize := toSize (← remainder ovf bytesSize info.pieceLength)
    return ⟨pieceSize, lastPieceSize,
      entries ++ [⟨0, info.pieceCount, 0, fileBeg, toLong lastPieceSize⟩]⟩
  | none => do
    let (entries, _, curPieceBegin) ← addFilesLong ovf opens fuel info.pieceLength 0 info.files 0 0
    return ⟨pieceSize, toSize curPieceBegin, entries⟩

end FillFiles

/-- `fill_files` returns, whatever an overflow does. -/
def Returns (opens : ℕ → Bool) (info : Info) : Prop :=
  ∀ ovf, ∃ fuel, Succeeds (fillFilesLong ovf opens fuel info)

/-- An overflow that does not return. -/
def stop : Overflow := fun _ => .error .undefined

/-! ### When it returns -/

/-- The position in a piece that a loop over pieces leaves of a position behind them. -/
def settle (pl cur : ℤ) : ℤ := if cur ≤ pl then cur else (cur - 1) % pl + 1

/-- The position in its piece after a file that ends at a position. -/
def cursor (pl fileEnd : ℤ) : ℤ := if fileEnd < pl then fileEnd else settle pl (fileEnd - pl)

/-- No file ends beyond the range of a `long long`, counted from the start of the piece it starts in,
and if the piece length is not positive, every file ends before it, or both are zero. -/
def FilesFit (opens : ℕ → Bool) (pl : ℤ) : ℕ → ℤ → List ℤ → Prop
  | _, _, [] => True
  | path, b, n :: files => (opens path ∨ InLong (n - 1)) ∧ InLong (b + n) ∧
      (0 < pl ∨ b + n < pl ∨ (b + n = 0 ∧ pl = 0)) ∧
      FilesFit opens pl (path + 1) (cursor pl (b + n)) files

/-- The piece length is not zero, or the files fit. -/
def CanFill (opens : ℕ → Bool) (info : Info) : Prop :=
  match info.length with
  | some n => (opens 0 ∨ InLong (n - 1)) ∧ info.pieceLength ≠ 0 ∧
      InLong (n.tdiv info.pieceLength)
  | none => FilesFit opens info.pieceLength 0 0 info.files

theorem inLong_natCast {n : ℕ} (h : n < 2 ^ 63) : InLong n := ⟨by omega, by exact_mod_cast h⟩

@[simp] theorem signed_of_inLong {ovf : Overflow} {z : ℤ} (h : InLong z) : signed ovf z = .ok z :=
  if_pos h

theorem signed_stop {z v : ℤ} : signed stop z = .ok v ↔ InLong z ∧ v = z := by
  unfold signed
  split_ifs with h
  · rw [Except.ok.injEq, eq_comm]
    exact (and_iff_right h).symm
  · refine iff_of_false (fun h' => ?_) fun h' => h h'.1
    cases h'

theorem remainder_stop {a b : ℤ} :
    Succeeds (remainder stop a b) ↔ b ≠ 0 ∧ InLong (a.tdiv b) := by
  unfold remainder
  split_ifs with hb hlong
  · exact iff_of_false (not_succeeds_error _) fun h => h.1 hb
  · exact iff_of_true (succeeds_ok _) ⟨hb, hlong⟩
  · exact iff_of_false (not_succeeds_error _) fun h => hlong h.2

theorem remainder_returns (ovf : Overflow) {a b : ℤ} (h : b ≠ 0 ∧ InLong (a.tdiv b)) :
    remainder ovf a b = .ok (a.tmod b) := by
  unfold remainder
  rw [if_neg h.1, if_pos h.2]

/-- Subtracting a piece does not change what the loop leaves. -/
theorem settle_sub {pl cur : ℤ} (h : pl < cur) :
    settle pl (cur - pl) = settle pl cur := by
  have hshift : (cur - pl - 1) % pl = (cur - 1) % pl := by
    rw [show cur - pl - 1 = cur - 1 - pl by omega, Int.sub_emod_right]
  unfold settle
  rw [if_neg (not_le.mpr h)]
  split_ifs with hle
  · rw [← hshift, Int.emod_eq_of_lt (by omega) (by omega)]
    omega
  · rw [hshift]

theorem settle_of_le {pl cur : ℤ} (h : cur ≤ pl) : settle pl cur = cur := if_pos h

theorem inLong_cursor {pl s : ℤ} (hs : InLong s) (h : 0 < pl ∨ s < pl ∨ (s = 0 ∧ pl = 0)) :
    InLong (cursor pl s) := by
  unfold InLong at hs ⊢
  unfold cursor settle
  split_ifs with hlt hle
  · exact hs
  · omega
  · have hpl : 0 < pl := by omega
    have hpos := Int.emod_nonneg (s - pl - 1) hpl.ne'
    have hbound := Int.emod_lt_of_pos (s - pl - 1) hpl
    omega

section Loops

variable {ovf : Overflow} {opens : ℕ → Bool} {pl n : ℤ} {path fuel : ℕ}

/-- Without an overflow the inner loop does what it does on integers. -/
theorem spill_of_stop : ∀ {fuel idx : ℕ} {cur fileBeg : ℤ}
    {r : List FileInfo × ℕ × ℤ}, spillLong stop pl path n fuel idx cur fileBeg = .ok r →
    spill pl path n fuel idx cur fileBeg = .ok r := by
  intro fuel
  induction fuel with
  | zero =>
    intro idx cur fileBeg r h
    unfold spillLong at h
    unfold spill
    split_ifs at h ⊢
    exact h
  | succ fuel ih =>
    intro idx cur fileBeg r h
    unfold spillLong at h
    unfold spill
    split_ifs at h ⊢
    · obtain ⟨next, hnext, h⟩ := bind_eq_ok.mp h
      obtain ⟨-, rfl⟩ := signed_stop.mp hnext
      obtain ⟨beg, hbeg, h⟩ := bind_eq_ok.mp h
      obtain ⟨-, rfl⟩ := signed_stop.mp hbeg
      obtain ⟨rest, hrest, h⟩ := bind_eq_ok.mp h
      exact bind_eq_ok.mpr ⟨rest, ih hrest, h⟩
    · exact h

/-- If the inner loop returns, the piece length is positive or the loop has not begun. -/
theorem spill_returned : ∀ {fuel idx idx' : ℕ} {cur cur' fileBeg : ℤ} {entries : List FileInfo},
    spill pl path n fuel idx cur fileBeg = .ok (entries, idx', cur') →
    (0 < pl ∨ cur ≤ pl) ∧ cur' = settle pl cur := by
  intro fuel
  induction fuel with
  | zero =>
    intro idx idx' cur cur' fileBeg entries h
    unfold spill at h
    split_ifs at h with hlt
    obtain ⟨-, -, rfl⟩ : [] = entries ∧ idx = idx' ∧ cur = cur' := by simpa using h
    exact ⟨Or.inr (not_lt.mp hlt), (settle_of_le (not_lt.mp hlt)).symm⟩
  | succ fuel ih =>
    intro idx idx' cur cur' fileBeg entries h
    unfold spill at h
    split_ifs at h with hlt
    · obtain ⟨⟨rest, idx'', cur''⟩, hrest, h⟩ := bind_eq_ok.mp h
      obtain ⟨-, -, rfl⟩ : _ ∧ idx'' = idx' ∧ cur'' = cur' := by
        simpa [pure, Except.pure] using h
      obtain ⟨hpl, hcur⟩ := ih hrest
      rw [settle_sub hlt] at hcur
      exact ⟨Or.inl (by omega), hcur⟩
    · obtain ⟨-, -, rfl⟩ : [] = entries ∧ idx = idx' ∧ cur = cur' := by simpa using h
      exact ⟨Or.inr (not_lt.mp hlt), (settle_of_le (not_lt.mp hlt)).symm⟩

/-- The inner loop returns without an overflow. -/
theorem spill_returns (ovf : Overflow) (path : ℕ) : ∀ (fuel idx : ℕ) (cur fileBeg : ℤ),
    cur ≤ fuel → -2 ^ 63 ≤ fileBeg → fileBeg + cur < 2 ^ 63 → cur < 2 ^ 63 → 0 < pl ∨ cur ≤ pl →
    ∃ entries idx',
      spillLong ovf pl path n fuel idx cur fileBeg = .ok (entries, idx', settle pl cur) := by
  intro fuel
  induction fuel with
  | zero =>
    intro idx cur fileBeg hf _ _ _ hpl
    unfold spillLong
    rw [if_neg (by omega), settle_of_le (by omega)]
    exact ⟨_, _, rfl⟩
  | succ fuel ih =>
    intro idx cur fileBeg hf hbeg hsum hcur hpl
    unfold spillLong
    split_ifs with hlt
    · obtain ⟨rest, idx', hrest⟩ := ih (idx + 1) (cur - pl) (fileBeg + pl) (by omega) (by omega)
        (by omega) (by omega) (by omega)
      rw [settle_sub hlt] at hrest
      refine ⟨_, _, bind_eq_ok.mpr ⟨_, signed_of_inLong ⟨by omega, by omega⟩,
        bind_eq_ok.mpr ⟨_, signed_of_inLong ⟨by omega, by omega⟩,
          bind_eq_ok.mpr ⟨_, hrest, rfl⟩⟩⟩⟩
    · rw [settle_of_le (not_lt.mp hlt)]
      exact ⟨_, _, rfl⟩

theorem succeeds_seekEnd_stop :
    Succeeds (seekEnd stop opens path n) ↔ (opens path ∨ InLong (n - 1)) := by
  unfold seekEnd
  split_ifs with hopen
  · exact iff_of_true (succeeds_ok _) (Or.inl hopen)
  · rw [succeeds_map]
    constructor
    · rintro ⟨v, hv⟩
      exact Or.inr (signed_stop.mp hv).1
    · rintro (h | h)
      · exact absurd h hopen
      · exact ⟨_, signed_of_inLong h⟩

theorem seekEnd_returns (ovf : Overflow) (h : opens path ∨ InLong (n - 1)) :
    seekEnd ovf opens path n = .ok () := by
  unfold seekEnd
  split_ifs with hopen
  · rfl
  · rw [signed_of_inLong (h.resolve_left hopen)]
    rfl

/-- Without an overflow a file is added as it is on integers. -/
theorem addFile_of_stop {idx : ℕ} {b : ℤ} {r : List FileInfo × ℕ × ℤ}
    (h : addFileLong stop opens fuel pl path n idx b = .ok r) :
    addFile fuel pl path n idx b = .ok r := by
  obtain ⟨_, -, h⟩ := bind_eq_ok.mp h
  obtain ⟨fileEnd, hend, h⟩ := bind_eq_ok.mp h
  obtain ⟨-, rfl⟩ := signed_stop.mp hend
  unfold addFile
  dsimp only at h ⊢
  split_ifs at h ⊢
  · exact h
  · obtain ⟨beg, hbeg, h⟩ := bind_eq_ok.mp h
    obtain ⟨-, rfl⟩ := signed_stop.mp hbeg
    obtain ⟨cur, hcur, h⟩ := bind_eq_ok.mp h
    obtain ⟨-, rfl⟩ := signed_stop.mp hcur
    obtain ⟨rest, hrest, h⟩ := bind_eq_ok.mp h
    exact bind_eq_ok.mpr ⟨rest, spill_of_stop hrest, h⟩

/-- If a file is added, its sum with the cursor fits the piece length. -/
theorem addFile_returned {idx idx' : ℕ} {b b' : ℤ} {entries : List FileInfo}
    (h : addFile fuel pl path n idx b = .ok (entries, idx', b')) :
    (0 < pl ∨ b + n < pl ∨ (b + n = 0 ∧ pl = 0)) ∧ b' = cursor pl (b + n) := by
  unfold addFile at h
  dsimp only at h
  unfold cursor
  split_ifs at h ⊢ with hlt
  · obtain ⟨-, -, rfl⟩ : _ ∧ idx = idx' ∧ b + n = b' := by simpa using h
    exact ⟨Or.inr (Or.inl hlt), rfl⟩
  · obtain ⟨⟨rest, idx'', cur''⟩, hrest, h⟩ := bind_eq_ok.mp h
    obtain ⟨-, -, rfl⟩ : _ ∧ idx'' = idx' ∧ cur'' = b' := by simpa [pure, Except.pure] using h
    obtain ⟨hpl, hcur⟩ := spill_returned hrest
    exact ⟨by omega, hcur.trans (congrArg (settle pl) (by omega))⟩

/-- Without an overflow, the sums of a file that is added are in the range. -/
theorem addFile_inLong {idx : ℕ} {b : ℤ} {r : List FileInfo × ℕ × ℤ}
    (h : addFileLong stop opens fuel pl path n idx b = .ok r) :
    (opens path ∨ InLong (n - 1)) ∧ InLong (b + n) := by
  obtain ⟨_, hseek, h⟩ := bind_eq_ok.mp h
  obtain ⟨fileEnd, hend, -⟩ := bind_eq_ok.mp h
  exact ⟨succeeds_seekEnd_stop.mp ⟨_, hseek⟩, (signed_stop.mp hend).1⟩

/-- A file that fits returns without an overflow. -/
theorem addFile_returns (ovf : Overflow) (idx : ℕ) {b : ℤ} (hf : 2 ^ 63 ≤ fuel) (hn : InLong n)
    (hb : InLong b) (hopen : opens path ∨ InLong (n - 1)) (hlong : InLong (b + n))
    (hpl : 0 < pl ∨ b + n < pl ∨ (b + n = 0 ∧ pl = 0)) :
    ∃ entries idx', addFileLong ovf opens fuel pl path n idx b =
      .ok (entries, idx', cursor pl (b + n)) := by
  have hseek := seekEnd_returns ovf hopen
  have hend : signed ovf (b + n) = .ok (b + n) := signed_of_inLong hlong
  unfold InLong at hn hb hlong
  unfold cursor
  by_cases hlt : b + n < pl
  · refine ⟨[⟨path, idx, b, 0, n⟩], idx, bind_eq_ok.mpr ⟨_, hseek, bind_eq_ok.mpr ⟨_, hend, ?_⟩⟩⟩
    rw [if_pos hlt, if_pos hlt]
    rfl
  · have hbeg : signed ovf (pl - b) = .ok (pl - b) := signed_of_inLong ⟨by omega, by omega⟩
    have hcur : signed ovf (n - (pl - b)) = .ok (b + n - pl) := by
      rw [show n - (pl - b) = b + n - pl by omega]
      exact signed_of_inLong ⟨by omega, by omega⟩
    obtain ⟨rest, idx', hrest⟩ : ∃ entries idx', spillLong ovf pl path n fuel (idx + 1) (b + n - pl)
        (pl - b) = .ok (entries, idx', settle pl (b + n - pl)) :=
      spill_returns ovf path fuel (idx + 1) (b + n - pl) (pl - b) (by omega) (by omega) (by omega)
        (by omega) (by omega)
    refine ⟨⟨path, idx, b, 0, n⟩ :: ⟨path, idx + 1, 0, pl - b, n⟩ :: rest, idx',
      bind_eq_ok.mpr ⟨_, hseek, bind_eq_ok.mpr ⟨_, hend, ?_⟩⟩⟩
    rw [if_neg hlt, if_neg hlt]
    exact bind_eq_ok.mpr ⟨_, hbeg, bind_eq_ok.mpr ⟨_, hcur, bind_eq_ok.mpr ⟨_, hrest, rfl⟩⟩⟩

/-- Files that return without an overflow fit. -/
theorem addFiles_returned : ∀ {files : List ℤ} {path idx : ℕ} {b : ℤ},
    Succeeds (addFilesLong stop opens fuel pl path files idx b) → FilesFit opens pl path b files
  | [], _, _, _, _ => trivial
  | n :: files, path, idx, b, h => by
    obtain ⟨⟨entries, idx', b'⟩, hadd, h⟩ := succeeds_bind.mp h
    obtain ⟨hopen, hlong⟩ := addFile_inLong hadd
    obtain ⟨hpl, rfl⟩ := addFile_returned (addFile_of_stop hadd)
    obtain ⟨⟨rest, state⟩, hrest, -⟩ := succeeds_bind.mp h
    exact ⟨hopen, hlong, hpl, addFiles_returned ⟨_, hrest⟩⟩

/-- Files that fit return without an overflow. -/
theorem addFiles_returns (ovf : Overflow) (hf : 2 ^ 63 ≤ fuel) : ∀ {files : List ℤ} {path : ℕ}
    (idx : ℕ) {b : ℤ}, (∀ n ∈ files, InLong n) → InLong b → FilesFit opens pl path b files →
    Succeeds (addFilesLong ovf opens fuel pl path files idx b)
  | [], _, _, _, _, _, _ => succeeds_ok _
  | n :: files, path, idx, b, hfiles, hb, ⟨hopen, hlong, hpl, hrest⟩ => by
    obtain ⟨entries, idx', hadd⟩ := addFile_returns ovf idx hf
      (hfiles n List.mem_cons_self) hb hopen hlong hpl
    obtain ⟨⟨rest, state⟩, hall⟩ := addFiles_returns ovf hf idx'
      (fun m hm => hfiles m (List.mem_cons_of_mem n hm)) (inLong_cursor hlong hpl) hrest
    exact ⟨_, bind_eq_ok.mpr ⟨_, hadd, bind_eq_ok.mpr ⟨_, hall, rfl⟩⟩⟩

/-! ### What it returns -/

theorem addFiles_of_stop : ∀ {files : List ℤ} {path idx : ℕ} {b : ℤ} {r : List FileInfo × ℕ × ℤ},
    addFilesLong stop opens fuel pl path files idx b = .ok r →
    addFiles fuel pl path files idx b = .ok r
  | [], _, _, _, _, h => h
  | n :: files, path, idx, b, r, h => by
    obtain ⟨head, hhead, h⟩ := bind_eq_ok.mp h
    obtain ⟨tail, htail, h⟩ := bind_eq_ok.mp h
    exact bind_eq_ok.mpr ⟨head, addFile_of_stop hhead,
      bind_eq_ok.mpr ⟨tail, addFiles_of_stop htail, h⟩⟩

/-- **What `fill_files` returns without an overflow is what the integers give.** -/
theorem fillFiles_of_stop {info : Info} {m : Manager}
    (h : fillFilesLong stop opens fuel info = .ok m) : fillFiles fuel info = .ok m := by
  obtain ⟨pl, length, files, pieces⟩ := info
  rcases length with _ | n
  · obtain ⟨state, hadds, h⟩ := bind_eq_ok.mp h
    exact bind_eq_ok.mpr ⟨state, addFiles_of_stop hadds, h⟩
  · obtain ⟨_, -, h⟩ := bind_eq_ok.mp h
    rcases hloop : singleLoop (toSize pl) (Info.pieceCount ⟨pl, some n, files, pieces⟩) 0 0 with
      ⟨entries, fileBeg⟩
    rw [hloop] at h
    obtain ⟨r, hr, h⟩ := bind_eq_ok.mp h
    obtain ⟨hne, hlong⟩ := remainder_stop.mp ⟨r, hr⟩
    cases hr.symm.trans (remainder_returns stop ⟨hne, hlong⟩)
    unfold fillFiles
    dsimp only at hne ⊢
    rw [hloop, if_neg hne]
    exact h

/-! ### No overflow, whatever one would do -/

theorem spill_any (ovf : Overflow) {pl n : ℤ} {path : ℕ} : ∀ {fuel idx : ℕ} {cur fileBeg : ℤ}
    {r : List FileInfo × ℕ × ℤ}, spillLong stop pl path n fuel idx cur fileBeg = .ok r →
    spillLong ovf pl path n fuel idx cur fileBeg = .ok r := by
  intro fuel
  induction fuel with
  | zero =>
    intro idx cur fileBeg r h
    unfold spillLong at h ⊢
    exact h
  | succ fuel ih =>
    intro idx cur fileBeg r h
    unfold spillLong at h ⊢
    split_ifs at h ⊢
    · obtain ⟨next, hnext, h⟩ := bind_eq_ok.mp h
      obtain ⟨hlong, rfl⟩ := signed_stop.mp hnext
      obtain ⟨beg, hbeg, h⟩ := bind_eq_ok.mp h
      obtain ⟨hlong', rfl⟩ := signed_stop.mp hbeg
      obtain ⟨rest, hrest, h⟩ := bind_eq_ok.mp h
      exact bind_eq_ok.mpr ⟨_, signed_of_inLong hlong,
        bind_eq_ok.mpr ⟨_, signed_of_inLong hlong', bind_eq_ok.mpr ⟨rest, ih hrest, h⟩⟩⟩
    · exact h

theorem addFile_any (ovf : Overflow) {opens : ℕ → Bool} {pl n : ℤ} {path fuel idx : ℕ} {b : ℤ}
    {r : List FileInfo × ℕ × ℤ} (h : addFileLong stop opens fuel pl path n idx b = .ok r) :
    addFileLong ovf opens fuel pl path n idx b = .ok r := by
  obtain ⟨_, hseek, h⟩ := bind_eq_ok.mp h
  obtain ⟨fileEnd, hend, h⟩ := bind_eq_ok.mp h
  obtain ⟨hlong, rfl⟩ := signed_stop.mp hend
  refine bind_eq_ok.mpr ⟨_, seekEnd_returns ovf (succeeds_seekEnd_stop.mp ⟨_, hseek⟩),
    bind_eq_ok.mpr ⟨_, signed_of_inLong hlong, ?_⟩⟩
  dsimp only at h ⊢
  split_ifs at h ⊢
  · exact h
  · obtain ⟨beg, hbeg, h⟩ := bind_eq_ok.mp h
    obtain ⟨hlong', rfl⟩ := signed_stop.mp hbeg
    obtain ⟨cur, hcur, h⟩ := bind_eq_ok.mp h
    obtain ⟨hlong'', rfl⟩ := signed_stop.mp hcur
    obtain ⟨rest, hrest, h⟩ := bind_eq_ok.mp h
    exact bind_eq_ok.mpr ⟨_, signed_of_inLong hlong', bind_eq_ok.mpr ⟨_, signed_of_inLong hlong'',
      bind_eq_ok.mpr ⟨rest, spill_any ovf hrest, h⟩⟩⟩

theorem addFiles_any (ovf : Overflow) {opens : ℕ → Bool} {pl : ℤ} {fuel : ℕ} : ∀ {files : List ℤ}
    {path idx : ℕ} {b : ℤ} {r : List FileInfo × ℕ × ℤ},
    addFilesLong stop opens fuel pl path files idx b = .ok r →
    addFilesLong ovf opens fuel pl path files idx b = .ok r
  | [], _, _, _, _, h => h
  | n :: files, path, idx, b, r, h => by
    obtain ⟨head, hhead, h⟩ := bind_eq_ok.mp h
    obtain ⟨tail, htail, h⟩ := bind_eq_ok.mp h
    exact bind_eq_ok.mpr ⟨head, addFile_any ovf hhead,
      bind_eq_ok.mpr ⟨tail, addFiles_any ovf htail, h⟩⟩

/-- **What returns without an overflow returns the same whatever an overflow would do.** -/
theorem fillFiles_any (ovf : Overflow) {opens : ℕ → Bool} {fuel : ℕ} {info : Info} {m : Manager}
    (h : fillFilesLong stop opens fuel info = .ok m) : fillFilesLong ovf opens fuel info = .ok m := by
  obtain ⟨pl, length, files, pieces⟩ := info
  rcases length with _ | n
  · obtain ⟨state, hadds, h⟩ := bind_eq_ok.mp h
    exact bind_eq_ok.mpr ⟨state, addFiles_any ovf hadds, h⟩
  · obtain ⟨_, hseek, h⟩ := bind_eq_ok.mp h
    rcases hloop : singleLoop (toSize pl) (Info.pieceCount ⟨pl, some n, files, pieces⟩) 0 0 with
      ⟨entries, fileBeg⟩
    rw [hloop] at h
    obtain ⟨r, hr, h⟩ := bind_eq_ok.mp h
    have hrem := remainder_stop.mp ⟨r, hr⟩
    cases hr.symm.trans (remainder_returns stop hrem)
    refine bind_eq_ok.mpr ⟨_, seekEnd_returns ovf (succeeds_seekEnd_stop.mp ⟨_, hseek⟩), ?_⟩
    rw [hloop]
    exact bind_eq_ok.mpr ⟨_, remainder_returns ovf hrem, h⟩

/-! ### A positive piece length -/

section Positive

variable (hovf : ∀ z, ∃ v, ovf z = .ok v ∧ InLong v)

include hovf

theorem signed_returns (z : ℤ) : ∃ v, signed ovf z = .ok v ∧ InLong v := by
  unfold signed
  split_ifs with h
  · exact ⟨z, rfl, h⟩
  · exact hovf z

/-- Whatever an overflow gives, the loop brings the cursor down to a piece. -/
theorem spill_returns_of_pos (hpl : 0 < pl) : ∀ (fuel idx : ℕ) {cur : ℤ} (fileBeg : ℤ), InLong cur →
    cur ≤ fuel → ∃ entries idx' b,
      spillLong ovf pl path n fuel idx cur fileBeg = .ok (entries, idx', b) ∧ InLong b := by
  intro fuel
  induction fuel with
  | zero =>
    intro idx cur fileBeg hcur hf
    unfold spillLong
    rw [if_neg (by omega)]
    exact ⟨_, _, _, rfl, hcur⟩
  | succ fuel ih =>
    intro idx cur fileBeg hcur hf
    unfold spillLong
    split_ifs with hlt
    · have hnext : InLong (cur - pl) := by
        unfold InLong at hcur ⊢
        omega
      obtain ⟨beg, hbeg, -⟩ := signed_returns hovf (fileBeg + pl)
      obtain ⟨rest, idx', b, hrest, hb⟩ := ih (idx + 1) beg hnext (by omega)
      exact ⟨_, _, _, bind_eq_ok.mpr ⟨_, signed_of_inLong hnext,
        bind_eq_ok.mpr ⟨_, hbeg, bind_eq_ok.mpr ⟨_, hrest, rfl⟩⟩⟩, hb⟩
    · exact ⟨_, _, _, rfl, hcur⟩

theorem addFile_returns_of_pos (hpl : 0 < pl) (hf : 2 ^ 63 ≤ fuel) (path : ℕ) (n : ℤ) (idx : ℕ)
    (b : ℤ) :
    ∃ entries idx' b', addFileLong ovf opens fuel pl path n idx b = .ok (entries, idx', b') ∧
      InLong b' := by
  have hseek : ∃ u, seekEnd ovf opens path n = .ok u := by
    obtain ⟨v, hv, -⟩ := signed_returns hovf (n - 1)
    unfold seekEnd
    rw [hv]
    split_ifs
    · exact ⟨_, rfl⟩
    · exact ⟨_, rfl⟩
  obtain ⟨u, hseek⟩ := hseek
  obtain ⟨s, hs, hlong⟩ := signed_returns hovf (b + n)
  obtain ⟨beg, hbeg, -⟩ := signed_returns hovf (pl - b)
  obtain ⟨cur, hcur, hcurlong⟩ := signed_returns hovf (n - beg)
  obtain ⟨rest, idx', b', hrest, hb'⟩ : ∃ entries idx' b',
      spillLong ovf pl path n fuel (idx + 1) cur beg = .ok (entries, idx', b') ∧ InLong b' := by
    refine spill_returns_of_pos hovf hpl fuel (idx + 1) beg hcurlong ?_
    have hlt := hcurlong.2
    omega
  by_cases hlt : s < pl
  · refine ⟨[⟨path, idx, b, 0, n⟩], idx, s, bind_eq_ok.mpr ⟨u, hseek, bind_eq_ok.mpr ⟨s, hs, ?_⟩⟩,
      hlong⟩
    rw [if_pos hlt]
    rfl
  · refine ⟨⟨path, idx, b, 0, n⟩ :: ⟨path, idx + 1, 0, beg, n⟩ :: rest, idx', b',
      bind_eq_ok.mpr ⟨u, hseek, bind_eq_ok.mpr ⟨s, hs, ?_⟩⟩, hb'⟩
    rw [if_neg hlt]
    exact bind_eq_ok.mpr ⟨_, hbeg, bind_eq_ok.mpr ⟨_, hcur, bind_eq_ok.mpr ⟨_, hrest, rfl⟩⟩⟩

/-- **With a positive piece length a multi-file torrent is filled, whatever number an overflow
gives.** -/
theorem addFiles_returns_of_pos (hpl : 0 < pl) (hf : 2 ^ 63 ≤ fuel) : ∀ (files : List ℤ)
    (path idx : ℕ) (b : ℤ), Succeeds (addFilesLong ovf opens fuel pl path files idx b)
  | [], _, _, _ => succeeds_ok _
  | n :: files, path, idx, b => by
    obtain ⟨entries, idx', b', hadd, -⟩ := addFile_returns_of_pos hovf hpl hf path n idx b
    obtain ⟨⟨rest, state⟩, hall⟩ := addFiles_returns_of_pos hpl hf files (path + 1) idx' b'
    exact ⟨_, bind_eq_ok.mpr ⟨_, hadd, bind_eq_ok.mpr ⟨_, hall, rfl⟩⟩⟩

end Positive

end Loops

/-- What returns without an overflow can be filled. -/
theorem canFill_of_stop {opens : ℕ → Bool} {fuel : ℕ} {info : Info}
    (h : Succeeds (fillFilesLong stop opens fuel info)) : CanFill opens info := by
  obtain ⟨pl, length, files, pieces⟩ := info
  obtain ⟨m, hm⟩ := h
  rcases length with _ | n
  · obtain ⟨state, hadds, -⟩ := bind_eq_ok.mp hm
    exact addFiles_returned ⟨state, hadds⟩
  · rcases hloop : singleLoop (toSize pl) (Info.pieceCount ⟨pl, some n, files, pieces⟩) 0 0 with
      ⟨entries, fileBeg⟩
    obtain ⟨_, hseek, hm⟩ := bind_eq_ok.mp hm
    rw [hloop] at hm
    obtain ⟨r, hr, -⟩ := bind_eq_ok.mp hm
    exact ⟨succeeds_seekEnd_stop.mp ⟨_, hseek⟩, remainder_stop.mp ⟨r, hr⟩⟩

/-- What can be filled returns, with rounds enough for any number. -/
theorem fillFiles_returns (ovf : Overflow) {opens : ℕ → Bool} {fuel : ℕ} {info : Info} (h : Longs info)
    (hf : 2 ^ 63 ≤ fuel) (hfit : CanFill opens info) : Succeeds (fillFilesLong ovf opens fuel info) := by
  obtain ⟨pl, length, files, pieces⟩ := info
  rcases length with _ | n
  · obtain ⟨⟨entries, idx, b⟩, hadds⟩ := addFiles_returns ovf hf 0 h.files (by decide) hfit
    exact ⟨_, bind_eq_ok.mpr ⟨_, hadds, rfl⟩⟩
  · rcases hloop : singleLoop (toSize pl) (Info.pieceCount ⟨pl, some n, files, pieces⟩) 0 0 with
      ⟨entries, fileBeg⟩
    obtain ⟨hopen, hrem⟩ := hfit
    refine succeeds_bind.mpr ⟨_, seekEnd_returns ovf hopen, ?_⟩
    rw [hloop]
    exact succeeds_bind.mpr ⟨_, remainder_returns ovf hrem, succeeds_pure _⟩

/-- **`fill_files` returns exactly if** the piece length of a single file is not zero, or the files
fit. -/
theorem returns_iff (opens : ℕ → Bool) (info : Info) (h : Longs info) :
    Returns opens info ↔ CanFill opens info := by
  constructor
  · intro hreturns
    obtain ⟨fuel, hfill⟩ := hreturns stop
    exact canFill_of_stop hfill
  · intro hfit ovf
    exact ⟨2 ^ 63, fillFiles_returns ovf h le_rfl hfit⟩

/-- Files of 3 and 6 bytes in pieces of 4. -/
theorem returns_iff_two : Returns (fun _ => false) ⟨4, none, [3, 6], []⟩ ↔
    CanFill (fun _ => false) ⟨4, none, [3, 6], []⟩ :=
  returns_iff _ _ ⟨by decide, fun n h => absurd h (Option.not_mem_none n), by decide⟩

theorem spillLong_zero (ovf : Overflow) : ∀ fuel idx : ℕ,
    spillLong ovf 0 0 1 fuel idx 1 0 = .error .timeout
  | 0, _ => rfl
  | fuel + 1, idx => by
    unfold spillLong
    rw [if_pos (by decide), signed_of_inLong (by decide), signed_of_inLong (by decide)]
    change (spillLong ovf 0 0 1 fuel (idx + 1) 1 0 >>= _) = _
    rw [spillLong_zero ovf fuel (idx + 1)]
    rfl

/-- A piece length of zero: a remainder by zero for a single file, and a loop that does not end for
a file of one byte. -/
theorem fillFiles_zero (ovf : Overflow) (opens : ℕ → Bool) (fuel : ℕ) :
    fillFilesLong ovf opens fuel ⟨0, some 1, [], []⟩ = .error .divisionByZero ∧
      fillFilesLong ovf opens fuel ⟨0, none, [1], []⟩ = .error .timeout := by
  have hseek : seekEnd ovf opens 0 1 = .ok () := seekEnd_returns ovf (Or.inr (by decide))
  have hadd : addFileLong ovf opens fuel 0 0 1 0 0 = .error .timeout := by
    have hend : signed ovf (0 + 1) = .ok 1 := signed_of_inLong (by decide)
    have hbeg : signed ovf (0 - 0) = .ok 0 := signed_of_inLong (by decide)
    have hcur : signed ovf (1 - 0) = .ok 1 := signed_of_inLong (by decide)
    have hlt : ¬ (1 : ℤ) < 0 := by decide
    simp only [addFileLong, hseek, hend, if_neg hlt, hbeg, hcur, spillLong_zero, bind, Except.bind]
  constructor
  · unfold fillFilesLong
    dsimp only
    rw [hseek]
    rfl
  · unfold fillFilesLong addFilesLong
    dsimp only
    rw [hadd]
    rfl

/-- With a piece length of zero neither kind of torrent is filled. -/
theorem not_returns_zero :
    (Longs ⟨0, some 1, [], []⟩ ∧ ∀ opens, ¬ Returns opens ⟨0, some 1, [], []⟩) ∧
      Longs ⟨0, none, [1], []⟩ ∧ ∀ opens, ¬ Returns opens ⟨0, none, [1], []⟩ := by
  refine ⟨⟨⟨by decide, fun n hn => ?_, by decide⟩, fun opens h => ?_⟩,
    ⟨by decide, fun n hn => absurd hn (Option.not_mem_none n), by decide⟩, fun opens h => ?_⟩
  · obtain rfl := Option.mem_some_iff.mp hn
    decide
  · obtain ⟨fuel, m, hm⟩ := h stop
    cases hm.symm.trans (fillFiles_zero stop opens fuel).1
  · obtain ⟨fuel, m, hm⟩ := h stop
    cases hm.symm.trans (fillFiles_zero stop opens fuel).2

end CppTorrent.Files.Filling
