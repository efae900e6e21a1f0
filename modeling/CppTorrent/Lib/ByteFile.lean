import Mathlib.Tactic

/-! # Byte files

A file is a byte list that grows when it is written past its end; a gap is filled with zeros.
`writeAt` writes a block at a position. A `Window` is a range of positions, and `copyWindow` copies
a window of a text into a file at the same place. `copyWindows_eq_take_iff` says when a sequence of
such copies has turned a file into a prefix of the text: the windows cover the file and none of them
reaches past its end. The order of the copies does not matter. -/

namespace CppTorrent.Lib.ByteFile

/-- Writes `data` at `pos`. Nothing happens if there is nothing to write. -/
def writeAt (pos : ℕ) (data file : List UInt8) : List UInt8 :=
  if data = [] then file
  else file.take pos ++ List.replicate (pos - file.length) 0 ++ data ++ file.drop (pos + data.length)

theorem writeAt_nil (pos : ℕ) (file : List UInt8) : writeAt pos [] file = file := if_pos rfl

theorem length_writeAt (pos : ℕ) {data : List UInt8} (file : List UInt8) (h : data ≠ []) :
    (writeAt pos data file).length = max file.length (pos + data.length) := by
  rw [writeAt, if_neg h]
  simp only [List.length_append, List.length_take, List.length_replicate, List.length_drop]
  omega

/-- What is written can be read back. -/
theorem getElem?_writeAt_of_mem {pos i : ℕ} {data : List UInt8} (file : List UInt8) (h1 : pos ≤ i)
    (h2 : i < pos + data.length) : (writeAt pos data file)[i]? = data[i - pos]? := by
  have hne : data ≠ [] := by
    rintro rfl
    simp only [List.length_nil] at h2
    omega
  have hlen : (file.take pos ++ List.replicate (pos - file.length) 0).length = pos := by
    simp only [List.length_append, List.length_take, List.length_replicate]
    omega
  rw [writeAt, if_neg hne, List.append_assoc, List.getElem?_append_right (by rw [hlen]; exact h1),
    hlen, List.getElem?_append_left (by omega)]

/-- What was there before stays. -/
theorem getElem?_writeAt_of_not_mem {pos i : ℕ} {data file : List UInt8} (hi : i < file.length)
    (h : i < pos ∨ pos + data.length ≤ i) : (writeAt pos data file)[i]? = file[i]? := by
  by_cases hne : data = []
  · rw [hne, writeAt_nil]
  · have hlen : (file.take pos ++ List.replicate (pos - file.length) 0).length = pos := by
      simp only [List.length_append, List.length_take, List.length_replicate]
      omega
    rw [writeAt, if_neg hne]
    rcases h with h | h
    · rw [List.append_assoc, List.getElem?_append_left (by rw [hlen]; exact h),
        List.getElem?_append_left (by rw [List.length_take]; omega), List.getElem?_take,
        if_pos h]
    · have hlen' : (file.take pos ++ List.replicate (pos - file.length) 0 ++ data).length =
          pos + data.length := by
        rw [List.length_append, hlen]
      rw [List.getElem?_append_right (by rw [hlen']; exact h), hlen', List.getElem?_drop]
      congr 1
      omega

/-- Reads `n` bytes one by one from `pos` on; where the file has ended a byte keeps the value 0. -/
def readAt (pos n : ℕ) (file : List UInt8) : List UInt8 :=
  (List.range' pos n).map fun i => file.getD i 0

/-- Before the end of the file the bytes are those of the file. -/
theorem readAt_eq_take {pos n : ℕ} {file : List UInt8} (h : pos + n ≤ file.length) :
    readAt pos n file = (file.drop pos).take n := by
  refine List.ext_getElem? fun i => ?_
  rw [readAt, List.getElem?_map, List.getElem?_take]
  by_cases hi : i < n
  · have hlt : pos + i < file.length := by omega
    rw [if_pos hi, List.getElem?_range' hi, List.getElem?_drop, List.getElem?_eq_getElem hlt,
      Option.map_some, Nat.one_mul, List.getD_eq_getElem?_getD, List.getElem?_eq_getElem hlt]
    rfl
  · have hlen : (List.range' pos n)[i]? = none := List.getElem?_eq_none (by simpa using hi)
    rw [if_neg hi, hlen, Option.map_none]

/-! ### Copying windows of a text -/

/-- The positions from `start` up to `start + size`. -/
structure Window where
  start : ℕ
  size : ℕ
  deriving DecidableEq

/-- The window holds the position. -/
def Window.Holds (w : Window) (i : ℕ) : Prop := w.start ≤ i ∧ i < w.start + w.size

/-- The bytes of a text in a window. -/
def Window.bytes (w : Window) (text : List UInt8) : List UInt8 := (text.drop w.start).take w.size

theorem Window.length_bytes {w : Window} {text : List UInt8} (h : w.start + w.size ≤ text.length) :
    (w.bytes text).length = w.size := by
  rw [Window.bytes, List.length_take, List.length_drop]
  omega

theorem Window.getElem?_bytes (w : Window) (text : List UInt8) (i : ℕ) :
    (w.bytes text)[i]? = if i < w.size then text[w.start + i]? else none := by
  rw [Window.bytes, List.getElem?_take, List.getElem?_drop]

theorem length_le_length_writeAt (pos : ℕ) (data file : List UInt8) :
    file.length ≤ (writeAt pos data file).length := by
  by_cases h : data = []
  · rw [h, writeAt_nil]
  · rw [length_writeAt pos file h]
    exact le_max_left _ _

/-- The window that was written holds what was written. -/
theorem bytes_writeAt_self (pos : ℕ) (data file : List UInt8) :
    (Window.mk pos data.length).bytes (writeAt pos data file) = data := by
  refine List.ext_getElem? fun i => ?_
  rw [Window.getElem?_bytes]
  split_ifs with hi
  · rw [getElem?_writeAt_of_mem file (Nat.le_add_right pos i) (Nat.add_lt_add_left hi pos),
      Nat.add_sub_cancel_left]
  · exact (List.getElem?_eq_none (not_lt.mp hi)).symm

/-- A window of the file that is apart from what is written stays as it was. -/
theorem bytes_writeAt_of_apart {w : Window} {pos : ℕ} {data file : List UInt8}
    (hin : w.start + w.size ≤ file.length)
    (h : w.start + w.size ≤ pos ∨ pos + data.length ≤ w.start) :
    w.bytes (writeAt pos data file) = w.bytes file := by
  refine List.ext_getElem? fun i => ?_
  rw [Window.getElem?_bytes, Window.getElem?_bytes]
  split_ifs with hi
  · exact getElem?_writeAt_of_not_mem (by omega) (by omega)
  · rfl

/-- Copies a window of the text into a file. -/
def copyWindow (text : List UInt8) (file : List UInt8) (w : Window) : List UInt8 :=
  writeAt w.start (w.bytes text) file

/-- Copies windows one after the other. -/
def copyWindows (text file : List UInt8) (ws : List Window) : List UInt8 :=
  ws.foldl (copyWindow text) file

section Copy

variable {text : List UInt8}

theorem length_copyWindow {w : Window} (h : w.start + w.size ≤ text.length) (file : List UInt8) :
    (copyWindow text file w).length =
      if w.size = 0 then file.length else max file.length (w.start + w.size) := by
  have hlen := w.length_bytes h
  unfold copyWindow
  split_ifs with hz
  · rw [List.length_eq_zero_iff.mp (hlen.trans hz), writeAt_nil]
  · have hne : w.bytes text ≠ [] := by
      rw [← List.length_pos_iff]
      omega
    rw [length_writeAt _ _ hne, hlen]

theorem getElem?_copyWindow_of_holds {w : Window} (h : w.start + w.size ≤ text.length)
    (file : List UInt8) {i : ℕ} (hi : w.Holds i) : (copyWindow text file w)[i]? = text[i]? := by
  obtain ⟨h1, h2⟩ := hi
  rw [copyWindow, getElem?_writeAt_of_mem file h1 (by rw [w.length_bytes h]; exact h2),
    Window.bytes, List.getElem?_take, if_pos (by omega), List.getElem?_drop]
  congr 1
  omega

/-- A position that holds its byte keeps it. -/
theorem getElem?_copyWindow_of_eq {w : Window} (h : w.start + w.size ≤ text.length)
    {file : List UInt8} {i : ℕ} (hi : i < file.length) (he : file[i]? = text[i]?) :
    (copyWindow text file w)[i]? = text[i]? := by
  by_cases hw : w.Holds i
  · exact getElem?_copyWindow_of_holds h file hw
  · rw [copyWindow, getElem?_writeAt_of_not_mem hi (by
      rw [w.length_bytes h]
      unfold Window.Holds at hw
      omega), he]

theorem length_copyWindow_le {w : Window} (h : w.start + w.size ≤ text.length) (file : List UInt8) :
    file.length ≤ (copyWindow text file w).length := by
  rw [length_copyWindow h]
  split_ifs <;> omega

/-- A file grows to the end of the last window. -/
theorem length_copyWindows_le_iff : ∀ {ws : List Window} (file : List UInt8) (n : ℕ),
    (∀ w ∈ ws, w.start + w.size ≤ text.length) →
    ((copyWindows text file ws).length ≤ n ↔
      file.length ≤ n ∧ ∀ w ∈ ws, w.size = 0 ∨ w.start + w.size ≤ n)
  | [], _, _, _ => by simp [copyWindows]
  | w :: ws, file, n, h => by
    have hw := h w (by simp)
    have ih := length_copyWindows_le_iff (copyWindow text file w) n
      fun w' (hw' : w' ∈ ws) => h w' (by simp [hw'])
    rw [copyWindows, List.foldl_cons]
    rw [copyWindows] at ih
    rw [ih, length_copyWindow hw]
    simp only [List.mem_cons, forall_eq_or_imp]
    rw [← and_assoc]
    refine and_congr_left fun _ => ?_
    split_ifs <;> omega

/-- A position holds its byte if it did before or a window holds it. -/
theorem getElem?_copyWindows : ∀ {ws : List Window} (file : List UInt8) {i : ℕ},
    (∀ w ∈ ws, w.start + w.size ≤ text.length) →
    (i < file.length ∧ file[i]? = text[i]?) ∨ (∃ w ∈ ws, w.Holds i) →
    (copyWindows text file ws)[i]? = text[i]?
  | [], _, _, _, hi => by
    rcases hi with hi | ⟨w, hw, -⟩
    · exact hi.2
    · simp at hw
  | w :: ws, file, i, h, hi => by
    have hw := h w (by simp)
    have ih := getElem?_copyWindows (copyWindow text file w) (i := i)
      fun w' (hw' : w' ∈ ws) => h w' (by simp [hw'])
    rw [copyWindows, List.foldl_cons]
    rw [copyWindows] at ih
    refine ih ?_
    rcases hi with ⟨hlt, he⟩ | ⟨w', hw', hh⟩
    · exact Or.inl ⟨lt_of_lt_of_le hlt (length_copyWindow_le hw file),
        getElem?_copyWindow_of_eq hw hlt he⟩
    · rcases List.mem_cons.mp hw' with rfl | hw'
      · left
        have hc := getElem?_copyWindow_of_holds hw file hh
        refine ⟨?_, hc⟩
        rw [length_copyWindow hw]
        obtain ⟨h1, h2⟩ := hh
        split_ifs <;> omega
      · exact Or.inr ⟨w', hw', hh⟩

/-- **A file covered by windows of a text becomes a prefix of the text exactly if no window reaches
past its end.** -/
theorem copyWindows_eq_take_iff {ws : List Window} {file : List UInt8}
    (hws : ∀ w ∈ ws, w.start + w.size ≤ text.length)
    (hcover : ∀ i < file.length, ∃ w ∈ ws, w.Holds i) :
    copyWindows text file ws = text.take file.length ↔
      ∀ w ∈ ws, w.size = 0 ∨ w.start + w.size ≤ file.length := by
  have hle := length_copyWindows_le_iff file file.length hws
  constructor
  · intro h
    refine (hle.mp ?_).2
    rw [h, List.length_take]
    exact min_le_left _ _
  · intro h
    have hle' := hle.mpr ⟨le_rfl, h⟩
    refine List.ext_getElem? fun i => ?_
    rw [List.getElem?_take]
    split_ifs with hi
    · exact getElem?_copyWindows file hws (Or.inr (hcover i hi))
    · exact List.getElem?_eq_none (by omega)

end Copy

end CppTorrent.Lib.ByteFile
