import CppTorrent.Files.Reading

/-! # Files without bytes in a multi-file torrent

`ReadPieceBlockFromFile` takes a read of size zero for the end of what it has to compute, and reads the
whole rest of the range from the file it is at. An empty file is at such a place: where a read comes to
it, the rest of the range is zeros (`readFiles`). At the start of a range an empty file is skipped by
`upper_bound`, so it is only the ones strictly inside a range that are read
(`readPieceBlockFromFile_iff`).

Empty files do not change the content, and so the reads of a torrent with empty files are those of the
torrent without them exactly if, in each range, the bytes from an empty file on are zeros
(`reads_withEmpties_iff`). -/

namespace CppTorrent.Files.EmptyFiles

open CppTorrent.Files.Blocks CppTorrent.Files.Storage CppTorrent.Files.Layout
open CppTorrent.Files.SingleFile CppTorrent.Files.Reading

/-- `WithEmpties files files'`: the list `files'` is `files` with empty files inserted. -/
inductive WithEmpties : List (List UInt8) → List (List UInt8) → Prop
  | nil : WithEmpties [] []
  | keep (file : List UInt8) {files files' : List (List UInt8)} :
      WithEmpties files files' → WithEmpties (file :: files) (file :: files')
  | insert {files files' : List (List UInt8)} :
      WithEmpties files files' → WithEmpties files ([] :: files')

/-- The bytes of the content at the positions from `a` to `b` are zero. -/
def ZeroFrom (files : List (List UInt8)) (a b : ℕ) : Prop :=
  ∀ x, a ≤ x → x < b → files.flatten[x]? = some 0

/-- Where an empty file lies strictly inside the positions from `a` to `b`, the content from there up to
`b` is zero. -/
def Harmless (files : List (List UInt8)) (a b : ℕ) : Prop :=
  ∀ i, files[i]? = some [] → a < globalStart (files.map List.length) i →
    ZeroFrom files (globalStart (files.map List.length) i) b

section WithEmpties

variable {files files' : List (List UInt8)}

theorem WithEmpties.flatten (h : WithEmpties files files') : files'.flatten = files.flatten := by
  induction h with
  | nil => rfl
  | keep file _ ih => rw [List.flatten_cons, List.flatten_cons, ih]
  | insert _ ih => rw [List.flatten_cons, List.nil_append, ih]

theorem WithEmpties.sum_length (h : WithEmpties files files') :
    (files'.map List.length).sum = (files.map List.length).sum := by
  rw [← List.length_flatten, ← List.length_flatten, h.flatten]

end WithEmpties

/-! ### Reading files of which some are empty -/

theorem globalStart_zero (lens : List ℕ) : globalStart lens 0 = 0 := by
  simp [globalStart]

theorem globalStart_cons (n : ℕ) (lens : List ℕ) (i : ℕ) :
    globalStart (n :: lens) (i + 1) = n + globalStart lens i := by
  rw [globalStart, globalStart, List.take_succ_cons, List.sum_cons]

theorem globalStart_add (lens : List ℕ) (i j : ℕ) :
    globalStart lens (i + j) = globalStart lens i + globalStart (lens.drop i) j := by
  rw [globalStart, globalStart, globalStart, List.take_add, List.sum_append]

theorem globalStart_mono (lens : List ℕ) {i j : ℕ} (h : i ≤ j) :
    globalStart lens i ≤ globalStart lens j := by
  obtain ⟨k, rfl⟩ := Nat.exists_eq_add_of_le h
  rw [globalStart_add]
  exact Nat.le_add_right _ _

theorem zeroFrom_zero_iff (files : List (List UInt8)) (len : ℕ) :
    ZeroFrom files 0 len ↔ List.replicate len 0 = files.flatten.take len := by
  constructor
  · intro h
    refine List.ext_getElem? fun x => ?_
    rw [List.getElem?_replicate, List.getElem?_take]
    split_ifs with hx
    · exact (h x (Nat.zero_le x) hx).symm
    · rfl
  · intro h x _ hx
    have hget := congrArg (fun bytes : List UInt8 => bytes[x]?) h
    rw [List.getElem?_replicate, List.getElem?_take, if_pos hx, if_pos hx] at hget
    exact hget.symm

/-- A first file moves the positions by its length. -/
theorem zeroFrom_cons_iff (file : List UInt8) (files : List (List UInt8)) (a b : ℕ) :
    ZeroFrom (file :: files) (file.length + a) b ↔ ZeroFrom files a (b - file.length) := by
  unfold ZeroFrom
  rw [List.flatten_cons]
  constructor
  · intro h x hax hxb
    have hx := h (file.length + x) (by omega) (by omega)
    rw [List.getElem?_append_right (by omega), Nat.add_sub_cancel_left] at hx
    exact hx
  · intro h x hax hxb
    rw [List.getElem?_append_right (by omega)]
    exact h (x - file.length) (by omega) (by omega)

/-- **The loop reads the bytes of the files exactly if it comes to no empty file, or only zeros are
left.** -/
theorem readFiles_eq_take_iff : ∀ (files : List (List UInt8)) (len : ℕ),
    readFiles files len = files.flatten.take len ↔
      ∀ i, files[i]? = some [] → ZeroFrom files (globalStart (files.map List.length) i) len
  | [], len => by simp [readFiles]
  | file :: files, len => by
    by_cases hnil : file = []
    · subst hnil
      rw [readFiles, if_pos rfl, ← zeroFrom_zero_iff]
      constructor
      · intro h i _ x _ hx
        exact h x (Nat.zero_le x) hx
      · intro h
        have hzero := h 0 rfl
        rw [globalStart_zero] at hzero
        exact hzero
    · have ih := readFiles_eq_take_iff files (len - file.length)
      rw [readFiles, if_neg hnil, List.flatten_cons, List.take_append, List.append_cancel_left_eq, ih,
        List.map_cons]
      constructor
      · intro h i hi
        cases i with
        | zero => exact absurd (Option.some.inj hi) hnil
        | succ i =>
          rw [globalStart_cons, zeroFrom_cons_iff]
          exact h i hi
      · intro h i hi
        have hsucc := h (i + 1) hi
        rw [globalStart_cons, zeroFrom_cons_iff] at hsucc
        exact hsucc

/-! ### The ranges of a piece -/

section Range

variable {pl : ℕ} {files : List (List UInt8)}

/-- What is left of the files from a position inside one of them on. -/
theorem forall_zeroFrom_rest_iff {i x b : ℕ} {file : List UInt8} (hfile : files[i]? = some file)
    (hx : x < file.length) :
    (∀ k, (file.drop x :: files.drop (i + 1))[k]? = some [] →
      ZeroFrom (file.drop x :: files.drop (i + 1))
        (globalStart ((file.drop x :: files.drop (i + 1)).map List.length) k) b) ↔
      Harmless files (globalStart (files.map List.length) i + x)
        (globalStart (files.map List.length) i + x + b) := by
  set s := globalStart (files.map List.length) i + x with hs
  have hlens : (files.map List.length)[i]? = some file.length := by simp [hfile]
  have hflatten : (file.drop x :: files.drop (i + 1)).flatten = files.flatten.drop s := by
    rw [drop_flatten hfile hx.le, List.flatten_cons, globalStart, List.drop_sum_flatten]
  have hzero : ∀ a, ZeroFrom (file.drop x :: files.drop (i + 1)) a b ↔
      ZeroFrom files (s + a) (s + b) := by
    intro a
    unfold ZeroFrom
    rw [hflatten]
    constructor
    · intro h y hay hyb
      have hy := h (y - s) (by omega) (by omega)
      rw [List.getElem?_drop, Nat.add_sub_cancel' (by omega)] at hy
      exact hy
    · intro h y hay hyb
      rw [List.getElem?_drop]
      exact h (s + y) (by omega) (by omega)
  -- the position of a later file
  have hstart : ∀ k, s + globalStart ((file.drop x :: files.drop (i + 1)).map List.length) (k + 1) =
      globalStart (files.map List.length) (i + 1 + k) := by
    intro k
    rw [List.map_cons, globalStart_cons, globalStart_add, globalStart_succ hlens, List.map_drop,
      List.length_drop]
    omega
  constructor
  · intro h j hj hlt
    have hij : i < j := by
      by_contra hle
      have := globalStart_mono (files.map List.length) (Nat.le_of_not_lt hle)
      omega
    obtain ⟨k, rfl⟩ := Nat.exists_eq_add_of_le (Nat.succ_le_of_lt hij)
    have hk := h (k + 1) (by rw [List.getElem?_cons_succ, List.getElem?_drop]; exact hj)
    rw [hzero, hstart] at hk
    exact hk
  · intro h k hk
    cases k with
    | zero =>
      -- the first one has bytes
      have hnil : file.drop x = [] := Option.some.inj hk
      rw [List.drop_eq_nil_iff] at hnil
      omega
    | succ k =>
      rw [List.getElem?_cons_succ, List.getElem?_drop] at hk
      rw [hzero, hstart]
      refine h _ hk ?_
      have := globalStart_mono (files.map List.length) (Nat.le_add_right (i + 1) k)
      rw [globalStart_succ hlens] at this
      omega

/-- **A range is read rightly exactly if the empty files strictly inside it are harmless.** -/
theorem readPieceBlockFromFile_iff {m : Manager} {disk : Disk} {p i fb begin_ len : ℕ}
    (hdisk : ∀ i, disk i = files[i]?) (hsum : (files.map List.length).sum < 2 ^ 63)
    (hrow : Row (files.map List.length) p (pieceLen pl (files.map List.length).sum p) i 0 fb
      (entriesOf p m.piecesByFiles))
    (hplace : p * pl = globalStart (files.map List.length) i + fb) (hlen : 0 < len)
    (hle : begin_ + len ≤ pieceLen pl (files.map List.length).sum p) :
    (readPieceBlockFromFile m disk p begin_ len).map Block.data =
        .ok ((files.flatten.drop (p * pl + begin_)).take len) ↔
      Harmless files (p * pl + begin_) (p * pl + begin_ + len) := by
  obtain ⟨i', x, file, hfile, hx, hstart, hread⟩ :=
    readPieceBlockFromFile_row hdisk hsum hrow hplace hlen hle
  have hflatten : (file.drop x :: files.drop (i' + 1)).flatten =
      files.flatten.drop (p * pl + begin_) := by
    rw [← hstart, drop_flatten hfile hx.le, List.flatten_cons, globalStart, List.drop_sum_flatten]
  rw [hread, ← hflatten, Except.ok.injEq, readFiles_eq_take_iff, ← hstart]
  exact forall_zeroFrom_rest_iff hfile hx

end Range

/-- **Inserted empty files do not change a read exactly if those strictly inside the range are
harmless.** -/
theorem reads_withEmpties_iff (pl : ℕ) (hpl : 0 < pl) (files files' : List (List UInt8))
    (hpos : ∀ file ∈ files, 0 < file.length) (hsum : (files.map List.length).sum < 2 ^ 63)
    (h : WithEmpties files files') (sha1s : List UInt8) (disk disk' : Disk)
    (hdisk : ∀ i, disk i = files[i]?) (hdisk' : ∀ i, disk' i = files'[i]?) :
    ∃ bound, ∀ fuel ≥ bound, ∃ m m',
      fillFiles fuel ⟨pl, none, files.map fun file => (file.length : ℤ), sha1s⟩ = .ok m ∧
      fillFiles fuel ⟨pl, none, files'.map fun file => (file.length : ℤ), sha1s⟩ = .ok m' ∧
      ∀ p begin_ len, p < ((files.map List.length).sum + pl - 1) / pl → 1 ≤ len →
        begin_ + len ≤ min pl ((files.map List.length).sum - p * pl) →
        ((readPieceBlockFromFile m disk p begin_ len).map Block.data =
            (readPieceBlockFromFile m' disk' p begin_ len).map Block.data ↔
          Harmless files' (p * pl + begin_) (p * pl + begin_ + len)) := by
  obtain ⟨bound, hread⟩ := fillFiles_read pl hpl files hpos hsum sha1s disk hdisk
  refine ⟨max bound (files'.map List.length).sum, fun fuel hfuel => ?_⟩
  obtain ⟨m, hfill, -, -, hread⟩ := hread fuel (le_of_max_le_left hfuel)
  obtain ⟨m', hfill', -, hrow⟩ :=
    fillFiles_row pl hpl (files'.map List.length) sha1s (le_of_max_le_right hfuel)
  rw [← map_length_cast] at hfill'
  refine ⟨m, m', hfill, hfill', fun p begin_ len hp hlen hle => ?_⟩
  rw [hread p begin_ len hp hlen hle, ← h.flatten]
  rw [← h.sum_length] at hsum hle
  rcases hrow p with ⟨-, hend⟩ | ⟨i, fb, hplace, hrow⟩
  · omega
  · rw [← readPieceBlockFromFile_iff hdisk' hsum hrow hplace hlen hle]
    exact eq_comm

/-- An empty file at the start of the second piece. -/
theorem reads_withEmpties_between :
    ∃ bound, ∀ fuel ≥ bound, ∃ m m', fillFiles fuel ⟨2, none, [2, 1], []⟩ = .ok m ∧
      fillFiles fuel ⟨2, none, [2, 0, 1], []⟩ = .ok m' ∧
      ((readPieceBlockFromFile m (fun i => [[1, 2], [3]][i]?) 1 0 1).map Block.data =
        (readPieceBlockFromFile m' (fun i => [[1, 2], [], [3]][i]?) 1 0 1).map Block.data ↔
          Harmless [[1, 2], [], [3]] 2 3) := by
  obtain ⟨bound, h⟩ := reads_withEmpties_iff 2 (by decide) [[1, 2], [3]] [[1, 2], [], [3]] (by decide)
    (by decide) (.keep _ (.insert (.keep _ .nil))) [] (fun i => [[1, 2], [3]][i]?)
    (fun i => [[1, 2], [], [3]][i]?) (fun _ => rfl) (fun _ => rfl)
  refine ⟨bound, fun fuel hfuel => ?_⟩
  obtain ⟨m, m', hm, hm', hread⟩ := h fuel hfuel
  exact ⟨m, m', hm, hm', hread 1 0 1 (by decide) (by decide) (by decide)⟩

/-- An empty file between files of four and six bytes in one piece: the six bytes are read as zeros. -/
theorem not_reads_withEmpties : ¬ ∀ (pl : ℕ), 0 < pl → ∀ files files' : List (List UInt8),
    (∀ file ∈ files, 0 < file.length) → (files.map List.length).sum < 2 ^ 63 →
    WithEmpties files files' → ∀ sha1s,
    ∃ bound, ∀ fuel ≥ bound, ∃ m m',
      fillFiles fuel ⟨pl, none, files.map fun file => (file.length : ℤ), sha1s⟩ = .ok m ∧
      fillFiles fuel ⟨pl, none, files'.map fun file => (file.length : ℤ), sha1s⟩ = .ok m' ∧
      ∀ p begin_ len, p < ((files.map List.length).sum + pl - 1) / pl → 1 ≤ len →
        begin_ + len ≤ min pl ((files.map List.length).sum - p * pl) →
        (readPieceBlockFromFile m (fun i => files[i]?) p begin_ len).map Block.data =
          (readPieceBlockFromFile m' (fun i => files'[i]?) p begin_ len).map Block.data := by
  intro hall
  obtain ⟨bound, h⟩ := hall 10 (by decide) [[1, 2, 3, 4], [5, 6, 7, 8, 9, 10]]
    [[1, 2, 3, 4], [], [5, 6, 7, 8, 9, 10]] (by decide) (by decide)
    (.keep _ (.insert (.keep _ .nil))) []
  obtain ⟨m, m', hm, hm', hread⟩ := h (bound + 1) (Nat.le_succ bound)
  have hsame := hread 0 0 10 (by decide) (by decide) (by decide)
  have hm : Except.ok m = Except.ok _ := hm.symm.trans
    (show fillFiles (bound + 1) ⟨10, none, [4, 6], []⟩ = .ok ⟨10, 0,
      [entry 0 0 0 0 4, entry 1 0 4 0 6, entry 1 1 0 6 6]⟩ by rfl)
  have hm' : Except.ok m' = Except.ok _ := hm'.symm.trans
    (show fillFiles (bound + 1) ⟨10, none, [4, 0, 6], []⟩ = .ok ⟨10, 0,
      [entry 0 0 0 0 4, entry 1 0 4 0 0, entry 2 0 4 0 6, entry 2 1 0 6 6]⟩ by rfl)
  cases hm
  cases hm'
  revert hsame
  decide

end CppTorrent.Files.EmptyFiles
