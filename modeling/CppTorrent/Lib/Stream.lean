import CppTorrent.Lib.Decimal
import Mathlib.Data.List.TakeWhile

/-! # Input streams

An input stream over a byte string: the bytes not yet taken from its buffer and the two state bits
`eofbit` and `failbit`. An input function first builds a sentry: on a stream that is not good it
sets `failbit` and takes nothing. `peek` at the end of the text sets `eofbit`; `get` there sets both
bits. Formatted extraction skips white space, takes an optional sign and the longest run of digits,
and sets `failbit` if there is no digit or the value does not fit. `copyN` goes past the state bits:
it reads the buffer directly, and copying `n` bytes moves the buffer by `n - 1` positions only. What an
iterator does past the end of the buffer is left open by the language, so `copyN` gives nothing there.

`failbit` is never cleared, so a stream that has not failed at the end of a sequence of operations
has not failed anywhere in between; the `…_of_failbit` lemmas say what each operation has then
taken from the text. -/

namespace CppTorrent.Lib.Stream

open CppTorrent.Lib.Decimal

/-- An input stream over a byte string. -/
structure IStream where
  buf : List UInt8
  eofbit : Bool
  failbit : Bool
  deriving DecidableEq, Repr

/-- A stream just opened on a text. -/
def ofBytes (text : List UInt8) : IStream := ⟨text, false, false⟩

namespace IStream

/-- No state bit is set. -/
def good (s : IStream) : Bool := !s.eofbit && !s.failbit

/-- What a failed sentry leaves. -/
def fail (s : IStream) : IStream := { s with failbit := true }

/-- The next byte, without taking it; `none` is the end-of-file value. -/
def peek (s : IStream) : Option UInt8 × IStream :=
  if s.good then
    match s.buf with
    | [] => (none, { s with eofbit := true })
    | b :: _ => (some b, s)
  else (none, s.fail)

/-- Takes one byte; the callers drop its value. -/
def get (s : IStream) : IStream :=
  if s.good then
    match s.buf with
    | [] => { s with eofbit := true, failbit := true }
    | _ :: rest => { s with buf := rest }
  else s.fail

/-- White space in the C locale. -/
def isSpace (b : UInt8) : Bool := b.toNat == 32 || (decide (9 ≤ b.toNat) && decide (b.toNat ≤ 13))

/-- The numeral at the front of a text: is it negative, its digits, and what follows. -/
def numeral : List UInt8 → Bool × List UInt8 × List UInt8
  | 43 :: t => (false, t.takeWhile isDigit, t.dropWhile isDigit)
  | 45 :: t => (true, t.takeWhile isDigit, t.dropWhile isDigit)
  | t => (false, t.takeWhile isDigit, t.dropWhile isDigit)

/-- Formatted extraction into a variable holding `old`. `conv` gives the value stored for a sign and
an absolute value, and whether it fits the type; `zero` is stored if there is no digit. -/
def extract {α : Type} (conv : Bool → ℕ → α × Bool) (zero old : α) (s : IStream) : α × IStream :=
  if s.good then
    let text := s.buf.dropWhile isSpace
    if text = [] then (old, ⟨[], true, true⟩)
    else
      let (neg, ds, rest) := numeral text
      if ds = [] then (zero, ⟨rest, rest.isEmpty, true⟩)
      else
        let (v, fits) := conv neg (value ds)
        (v, ⟨rest, rest.isEmpty, !fits⟩)
  else (old, s.fail)

/-- Conversion to a 64-bit unsigned type: a minus sign negates modulo `2 ^ 64`. -/
def toUnsigned (neg : Bool) (n : ℕ) : ℕ × Bool :=
  if n < 2 ^ 64 then (if neg then (2 ^ 64 - n) % 2 ^ 64 else n, true) else (2 ^ 64 - 1, false)

/-- Conversion to a 64-bit signed type. -/
def toSigned (neg : Bool) (n : ℕ) : ℤ × Bool :=
  if neg then (if n ≤ 2 ^ 63 then (-(n : ℤ), true) else (-2 ^ 63, false))
  else (if n < 2 ^ 63 then ((n : ℤ), true) else (2 ^ 63 - 1, false))

/-- `input >> value` for a 64-bit unsigned `value` holding `old`. -/
def extractUnsigned (old : ℕ) (s : IStream) : ℕ × IStream := s.extract toUnsigned 0 old

/-- `input >> value` for a 64-bit signed `value` that has not been initialised: `none` if it still has
not been after the extraction. -/
def extractSigned (s : IStream) : Option ℤ × IStream :=
  s.extract (fun neg n => (some (toSigned neg n).1, (toSigned neg n).2)) (some 0) none

/-- Copying `n` bytes out of the stream buffer, if there are as many. -/
def copyN (n : ℕ) (s : IStream) : Option (List UInt8 × IStream) :=
  if n ≤ s.buf.length then some (s.buf.take n, { s with buf := s.buf.drop (n - 1) }) else none

/-! ### On a stream that is good -/

@[simp] theorem good_ofBytes (t : List UInt8) : (ofBytes t).good = true := rfl

@[simp] theorem buf_ofBytes (t : List UInt8) : (ofBytes t).buf = t := rfl

theorem good_iff {s : IStream} : s.good = true ↔ s.eofbit = false ∧ s.failbit = false := by
  simp [good]

@[simp] theorem peek_cons (b : UInt8) (t : List UInt8) :
    (ofBytes (b :: t)).peek = (some b, ofBytes (b :: t)) := rfl

@[simp] theorem peek_nil : (ofBytes []).peek = (none, ⟨[], true, false⟩) := rfl

@[simp] theorem get_cons (b : UInt8) (t : List UInt8) : (ofBytes (b :: t)).get = ofBytes t := rfl

theorem peek_of_not_good {s : IStream} (h : s.good = false) : s.peek = (none, s.fail) := by
  simp [peek, h]

theorem good_fail (s : IStream) : s.fail.good = false := by simp [good, fail]

theorem good_peek_fail (s : IStream) : s.fail.peek.2.good = false := by
  rw [peek_of_not_good (good_fail s)]; exact good_fail _

/-- A `peek` that sees a byte changes nothing. -/
theorem peek_of_some {s : IStream} (h : s.peek.1 ≠ none) : s.peek.2 = s := by
  unfold peek at h ⊢
  split_ifs at h ⊢ with hg
  · cases hb : s.buf with
    | nil => rw [hb] at h; exact absurd rfl h
    | cons b t => rfl
  · exact absurd rfl h

/-- A stream that is not good after a `peek` had no byte to see. -/
theorem peek_none_of_not_good {s : IStream} (h : s.peek.2.good = false) : s.peek.1 = none := by
  by_contra hn
  rw [peek_of_some hn] at h
  rw [peek_of_not_good h] at hn
  exact hn rfl

/-- A second `peek` sees what the first one saw. -/
theorem peek_peek_fst (s : IStream) : s.peek.2.peek.1 = s.peek.1 := by
  by_cases hn : s.peek.1 = none
  · have : s.peek.2.good = false := by
      unfold peek at hn ⊢
      split_ifs at hn ⊢ with hg
      · cases hb : s.buf with
        | nil => simp [good]
        | cons b t => rw [hb] at hn; simp at hn
      · exact good_fail s
    rw [peek_of_not_good this, hn]
  · rw [peek_of_some hn]

theorem get_of_not_good {s : IStream} (h : s.good = false) : s.get = s.fail := by
  simp [get, h]

theorem extract_of_not_good {α : Type} (conv : Bool → ℕ → α × Bool) (zero old : α) {s : IStream}
    (h : s.good = false) : s.extract conv zero old = (old, s.fail) := by
  simp [extract, h]

theorem copyN_append {t : List UInt8} (rest : List UInt8) {n : ℕ} (hn : t.length = n + 1) :
    (ofBytes (t ++ rest)).copyN (n + 1) = some (t, ofBytes (t.drop n ++ rest)) := by
  have h1 : (t ++ rest).take (n + 1) = t := by rw [← hn, List.take_left]
  have h2 : n + 1 ≤ (t ++ rest).length := by rw [List.length_append]; omega
  have h3 : (t ++ rest).drop n = t.drop n ++ rest := List.drop_append_of_le_length (by omega)
  simp only [copyN, buf_ofBytes, if_pos h2, h1, Nat.add_sub_cancel, h3]
  rfl

/-- Copying nothing leaves the stream as it is. -/
@[simp] theorem copyN_zero (s : IStream) : s.copyN 0 = some ([], s) := by
  simp [copyN]

theorem isSpace_of_isDigit {b : UInt8} (h : isDigit b = true) : isSpace b = false := by
  simp only [isDigit, Bool.and_eq_true, decide_eq_true_eq] at h
  simp only [isSpace, Bool.or_eq_false_iff, beq_eq_false_iff_ne, Bool.and_eq_false_iff,
    decide_eq_false_iff_not]
  omega

theorem ne_sign_of_isDigit {b : UInt8} (h : isDigit b = true) : b ≠ 43 ∧ b ≠ 45 := by
  constructor <;> rintro rfl <;> revert h <;> decide

theorem numeral_of_isDigit {d : UInt8} (t : List UInt8) (hd : isDigit d = true) :
    numeral (d :: t) = (false, (d :: t).takeWhile isDigit, (d :: t).dropWhile isDigit) := by
  obtain ⟨h1, h2⟩ := ne_sign_of_isDigit hd
  unfold numeral
  split
  · next h => exact absurd (List.cons.inj h).1 h1
  · next h => exact absurd (List.cons.inj h).1 h2
  · rfl

section Digits

variable {α : Type} {conv : Bool → ℕ → α × Bool} {zero old v : α} {ds rest : List UInt8} {b : UInt8}

/-- Extraction of a run of digits that is not at the end of the text, of a value that may not fit. -/
theorem extract_digits_conv {fits : Bool} (hne : ds ≠ []) (hds : ∀ d ∈ ds, isDigit d = true)
    (hc : conv false (value ds) = (v, fits)) (hb : isDigit b = false) :
    (ofBytes (ds ++ b :: rest)).extract conv zero old = (v, ⟨b :: rest, false, !fits⟩) := by
  obtain ⟨d, ds, rfl⟩ := List.exists_cons_of_ne_nil hne
  have hd := hds d (by simp)
  have hstops : Stops (b :: rest) := stops_cons hb
  have ht := takeWhile_digits hds hstops
  have hdr := dropWhile_digits hds hstops
  rw [List.cons_append] at ht hdr
  have hsp : (d :: (ds ++ b :: rest)).dropWhile isSpace = d :: (ds ++ b :: rest) := by
    simp [isSpace_of_isDigit hd]
  rw [List.cons_append]
  simp only [extract, good_ofBytes, if_true, buf_ofBytes, hsp, numeral_of_isDigit _ hd, ht, hdr,
    hc, reduceCtorEq, if_false, List.isEmpty_cons]

/-- Extraction of a run of digits that is not at the end of the text. -/
theorem extract_digits (hne : ds ≠ []) (hds : ∀ d ∈ ds, isDigit d = true)
    (hc : conv false (value ds) = (v, true)) (hb : isDigit b = false) :
    (ofBytes (ds ++ b :: rest)).extract conv zero old = (v, ofBytes (b :: rest)) :=
  extract_digits_conv hne hds hc hb

/-- Extraction of a run of digits at the end of the text. -/
theorem extract_digits_end (hne : ds ≠ []) (hds : ∀ d ∈ ds, isDigit d = true)
    (hc : conv false (value ds) = (v, true)) :
    (ofBytes ds).extract conv zero old = (v, ⟨[], true, false⟩) := by
  have hstops : Stops [] := fun b hb => by cases hb
  have ht := takeWhile_digits hds hstops
  have hdr := dropWhile_digits hds hstops
  rw [List.append_nil] at ht hdr
  obtain ⟨d, ds, rfl⟩ := List.exists_cons_of_ne_nil hne
  have hd := hds d List.mem_cons_self
  have hsp : (d :: ds).dropWhile isSpace = d :: ds := by
    simp [isSpace_of_isDigit hd]
  simp only [extract, good_ofBytes, if_true, buf_ofBytes, hsp, numeral_of_isDigit _ hd, ht, hdr,
    hc, reduceCtorEq, if_false, List.isEmpty_nil, Bool.not_true]

/-- Extraction of digits with a minus sign. -/
theorem extract_neg_digits (hne : ds ≠ []) (hds : ∀ d ∈ ds, isDigit d = true)
    (hc : conv true (value ds) = (v, true)) (hb : isDigit b = false) :
    (ofBytes (45 :: (ds ++ b :: rest))).extract conv zero old = (v, ofBytes (b :: rest)) := by
  have hstops : Stops (b :: rest) := stops_cons hb
  have ht := takeWhile_digits hds hstops
  have hdr := dropWhile_digits hds hstops
  have hsp : (45 :: (ds ++ b :: rest)).dropWhile isSpace = 45 :: (ds ++ b :: rest) := by
    have : isSpace 45 = false := by decide
    simp [this]
  simp only [extract, good_ofBytes, if_true, buf_ofBytes, hsp, numeral, ht, hdr, hne, hc,
    reduceCtorEq, if_false, List.isEmpty_cons, Bool.not_true]
  rfl

end Digits

theorem toSigned_false {n : ℕ} (h : n < 2 ^ 63) : toSigned false n = ((n : ℤ), true) := by
  simp only [toSigned, Bool.false_eq_true, if_false, h, if_true]

theorem toSigned_true {n : ℕ} (h : n ≤ 2 ^ 63) : toSigned true n = (-(n : ℤ), true) := by
  simp only [toSigned, h, if_true]

/-! ### What an operation has taken if the stream has not failed after it -/

theorem peek_of_failbit {s : IStream} (h : s.peek.2.failbit = false) :
    s.failbit = false ∧ s.peek.2.buf = s.buf := by
  unfold peek at h ⊢
  split_ifs at h ⊢ with hg
  · cases hb : s.buf with
    | nil => exact ⟨(good_iff.mp hg).2, rfl⟩
    | cons b t => exact ⟨(good_iff.mp hg).2, hb⟩
  · simp [fail] at h

/-- After a `peek` a good stream is not at its end. -/
theorem buf_ne_nil_of_good_peek {s : IStream} : s.peek.2.good = true → s.peek.2.buf ≠ [] := by
  unfold peek
  split_ifs with hg
  · cases hb : s.buf with
    | nil => intro h; simp [good] at h
    | cons b t => intro _; simp [hb]
  · intro h; simp [good, fail] at h

/-- A `peek` that sees no byte on a stream not good at its end has failed. -/
theorem failbit_of_peek_none {s : IStream} (hs : s.good = true → s.buf ≠ [])
    (h : s.peek.1 = none) : s.peek.2.failbit = true := by
  unfold peek at h ⊢
  split_ifs at h ⊢ with hg
  · cases hb : s.buf with
    | nil => exact absurd hb (hs hg)
    | cons b t => rw [hb] at h; simp at h
  · rfl

/-- `get` has taken one byte of a good stream. -/
theorem get_of_failbit {s : IStream} (h : s.get.failbit = false) :
    s.good = true ∧ s.buf.length = s.get.buf.length + 1 := by
  unfold get at h ⊢
  split_ifs at h ⊢ with hg
  · cases hb : s.buf with
    | nil => simp [hb] at h
    | cons b t => exact ⟨hg, by simp⟩
  · simp [fail] at h

theorem length_numeral (t : List UInt8) :
    (numeral t).2.1.length + (numeral t).2.2.length + (numeral t).1.toNat ≤ t.length := by
  have key : ∀ u : List UInt8,
      (u.takeWhile isDigit).length + (u.dropWhile isDigit).length = u.length := fun u => by
    rw [← List.length_append, List.takeWhile_append_dropWhile]
  unfold numeral
  split
  · next u => have := key u; simp only [Bool.toNat_false, List.length_cons]; omega
  · next u => have := key u; simp only [Bool.toNat_true, List.length_cons]; omega
  · next u _ _ => have := key t; simp only [Bool.toNat_false]; omega

theorem isDigit_numeral (t : List UInt8) : ∀ d ∈ (numeral t).2.1, isDigit d = true := by
  intro d hd
  unfold numeral at hd
  split at hd <;> exact List.mem_takeWhile_imp hd

/-- A successful extraction has taken a sign and digits whose value was converted. -/
theorem extract_of_failbit {α : Type} {conv : Bool → ℕ → α × Bool} {zero old : α} {s : IStream}
    (h : (s.extract conv zero old).2.failbit = false) :
    s.failbit = false ∧ ∃ (neg : Bool) (ds : List UInt8), ds ≠ [] ∧ (∀ d ∈ ds, isDigit d = true) ∧
      conv neg (value ds) = ((s.extract conv zero old).1, true) ∧
      ds.length + neg.toNat + (s.extract conv zero old).2.buf.length ≤ s.buf.length := by
  unfold extract at h ⊢
  simp only at h ⊢
  split_ifs at h ⊢ with hg ht hd
  · have hlen := length_numeral (s.buf.dropWhile isSpace)
    have hle : (s.buf.dropWhile isSpace).length ≤ s.buf.length :=
      (List.dropWhile_suffix isSpace).length_le
    refine ⟨(good_iff.mp hg).2, (numeral (s.buf.dropWhile isSpace)).1, _, hd,
      isDigit_numeral _, ?_, ?_⟩
    · exact Prod.ext rfl (by simpa using h)
    · exact le_trans (by rw [Nat.add_right_comm]; exact hlen) hle
  · simp [fail] at h

/-- What has been copied was in the buffer. -/
theorem copyN_eq_some {n : ℕ} {s s' : IStream} {str : List UInt8} :
    s.copyN n = some (str, s') ↔
      n ≤ s.buf.length ∧ s.buf.take n = str ∧ { s with buf := s.buf.drop (n - 1) } = s' := by
  unfold copyN
  split_ifs with h
  · simp [h]
  · simp [h]

theorem length_copyN {n : ℕ} {s s' : IStream} {str : List UInt8} (h : s.copyN n = some (str, s')) :
    str.length = n := by
  obtain ⟨hle, rfl, -⟩ := copyN_eq_some.mp h
  exact List.length_take_of_le hle

/-- `copyN` has moved over `n - 1` bytes. -/
theorem length_buf_copyN {n : ℕ} {s s' : IStream} {str : List UInt8} (h : s.copyN n = some (str, s')) :
    s'.buf.length + (n - 1) = s.buf.length := by
  obtain ⟨hle, -, rfl⟩ := copyN_eq_some.mp h
  rw [List.length_drop]
  omega

/-! ### The room of a stream: what its operations can still use up -/

/-- The bytes left and one more while the stream is good. -/
def room (s : IStream) : ℕ := s.buf.length + s.good.toNat

theorem room_ofBytes (t : List UInt8) : (ofBytes t).room = t.length + 1 := rfl

theorem room_of_not_good {s : IStream} (h : s.good = false) : s.room = s.buf.length := by
  simp [room, h]

theorem room_of_good {s : IStream} (h : s.good = true) : s.room = s.buf.length + 1 := by
  simp [room, h]

theorem buf_le_room (s : IStream) : s.buf.length ≤ s.room := Nat.le_add_right _ _

theorem room_fail (s : IStream) : s.fail.room ≤ s.room := by
  rw [room_of_not_good (good_fail s)]
  exact buf_le_room s

theorem room_peek (s : IStream) : s.peek.2.room ≤ s.room := by
  unfold peek
  split_ifs with hg
  · cases hb : s.buf with
    | nil => simp [room, good, hb]
    | cons b t => exact le_rfl
  · exact room_fail s

theorem room_get (s : IStream) : s.get.room ≤ s.room := by
  unfold get
  split_ifs with hg
  · cases hb : s.buf with
    | nil => simp [room, good, hb]
    | cons b t => simp [room, good, hb]
  · exact room_fail s

/-- `get` takes a byte of a good stream that is not at its end. -/
theorem room_get_lt {s : IStream} (hg : s.good = true) (hb : s.buf ≠ []) :
    s.get.room < s.room := by
  obtain ⟨b, t, ht⟩ := List.exists_cons_of_ne_nil hb
  unfold get
  rw [if_pos hg, ht]
  simp [room, good, ht]

theorem room_copyN {n : ℕ} {s s' : IStream} {str : List UInt8} (h : s.copyN n = some (str, s')) :
    s'.room ≤ s.room := by
  have hlen := length_buf_copyN h
  obtain ⟨-, -, rfl⟩ := copyN_eq_some.mp h
  unfold room good at *
  dsimp only at *
  omega

/-- An extraction from a good stream takes a digit or spoils the stream. -/
theorem room_extract_lt {α : Type} {conv : Bool → ℕ → α × Bool} {zero old : α} {s : IStream}
    (hg : s.good = true) : (s.extract conv zero old).2.room < s.room := by
  have hle : (s.buf.dropWhile isSpace).length ≤ s.buf.length :=
    (List.dropWhile_suffix isSpace).length_le
  have hlen := length_numeral (s.buf.dropWhile isSpace)
  rw [room_of_good hg]
  simp only [extract, if_pos hg]
  generalize numeral (s.buf.dropWhile isSpace) = num at hlen ⊢
  obtain ⟨neg, ds, rest⟩ := num
  simp only at hlen ⊢
  split_ifs with ht hd
  · simp [room, good]
  · simp only [room, good, Bool.not_true, Bool.and_false, Bool.toNat_false]
    omega
  · have hpos := List.length_pos_iff.mpr hd
    have hbit := Bool.toNat_le (good ⟨rest, rest.isEmpty, !(conv neg (value ds)).2⟩)
    simp only [room]
    omega

theorem room_extract {α : Type} (conv : Bool → ℕ → α × Bool) (zero old : α) (s : IStream) :
    (s.extract conv zero old).2.room ≤ s.room := by
  by_cases hg : s.good = true
  · exact le_of_lt (room_extract_lt hg)
  · rw [extract_of_not_good _ _ _ (by simpa using hg)]
    exact room_fail s

/-! ### The numbers of a stream -/

/-- Conversion to a 32-bit signed type. -/
def toInt (neg : Bool) (n : ℕ) : ℤ × Bool :=
  if neg then (if n ≤ 2 ^ 31 then (-(n : ℤ), true) else (-2 ^ 31, false))
  else (if n < 2 ^ 31 then ((n : ℤ), true) else (2 ^ 31 - 1, false))

/-- `input >> value` for a 32-bit signed `value` that has been initialised with 0. -/
def extractInt (s : IStream) : ℤ × IStream := s.extract toInt 0 0

theorem good_of_extractInt {s : IStream} (h : s.extractInt.2.failbit = false) : s.good = true := by
  by_contra hg
  have hgood : s.good = false := by simpa using hg
  rw [extractInt, extract_of_not_good _ _ _ hgood] at h
  cases h

theorem toInt_false {n : ℕ} (h : n < 2 ^ 31) : toInt false n = ((n : ℤ), true) := by
  simp only [toInt, Bool.false_eq_true, if_false, h, if_true]

/-- `input >> c` for a `char`: the stream after it, if there is a byte that is no white space. -/
def extractChar (s : IStream) : Option IStream :=
  if s.good then
    match s.buf.dropWhile isSpace with
    | [] => none
    | _ :: rest => some { s with buf := rest }
  else none

theorem extractChar_cons {b : UInt8} (rest : List UInt8) (h : isSpace b = false) :
    (ofBytes (b :: rest)).extractChar = some (ofBytes rest) := by
  have hdrop : (b :: rest).dropWhile isSpace = b :: rest := by simp [h]
  simp only [extractChar, good_ofBytes, if_true, buf_ofBytes, hdrop]
  rfl

/-- It takes a byte. -/
theorem room_extractChar_lt {s s' : IStream} (h : s.extractChar = some s') : s'.room < s.room := by
  have hle : (s.buf.dropWhile isSpace).length ≤ s.buf.length :=
    (List.dropWhile_suffix isSpace).length_le
  unfold extractChar at h
  split_ifs at h with hg
  split at h
  · cases h
  · next b rest hrest =>
    cases h
    rw [hrest, List.length_cons] at hle
    change rest.length + s.good.toNat < s.buf.length + s.good.toNat
    omega

/-- The values of an input iterator over the stream: one extraction after the other, up to the first
that fails. -/
def ints (s : IStream) : List ℤ :=
  if _h : s.extractInt.2.failbit = false then s.extractInt.1 :: ints s.extractInt.2 else []
termination_by s.room
decreasing_by exact room_extract_lt (good_of_extractInt _h)

theorem ints_of_fail {s : IStream} (h : s.extractInt.2.failbit = true) : s.ints = [] := by
  rw [ints, dif_neg (by rw [h]; decide)]

theorem ints_of_done {s s' : IStream} {v : ℤ} (h : s.extractInt = (v, s')) (hs : s'.failbit = false) :
    s.ints = v :: s'.ints := by
  rw [ints, h, dif_pos hs]

/-- An iterator over a text that begins with a byte that is no white space, sign or digit has no
values. -/
theorem ints_of_letter {b : UInt8} (t : List UInt8) (hspace : isSpace b = false)
    (hsign : b ≠ 43 ∧ b ≠ 45) (hdigit : isDigit b = false) : (ofBytes (b :: t)).ints = [] := by
  have hdrop : (b :: t).dropWhile isSpace = b :: t := by simp [hspace]
  have hnumeral : numeral (b :: t) = (false, [], b :: t) := by
    unfold numeral
    split
    · next h => exact absurd (List.cons.inj h).1 hsign.1
    · next h => exact absurd (List.cons.inj h).1 hsign.2
    · simp [hdigit]
  refine ints_of_fail ?_
  simp only [extractInt, extract, good_ofBytes, if_true, buf_ofBytes, hdrop, hnumeral, reduceCtorEq,
    if_false]

end IStream

/-! ### Readers run for a bounded number of steps -/

/-- The result of a reader that may need any number of steps, may throw and may do what the language
does not define: `timeout` says that the steps it was given were not enough. -/
inductive Outcome (α : Type) where
  | timeout
  | thrown
  | undefined
  | done (a : α) (s : IStream)

namespace Outcome

variable {α β : Type}

/-- Runs `f` on the result and on the stream left. -/
def bind (x : Outcome α) (f : α → IStream → Outcome β) : Outcome β :=
  match x with
  | timeout => timeout
  | thrown => thrown
  | undefined => undefined
  | done a s => f a s

/-- The reader has come to an end, with a result or by an exception. -/
def Halts : Outcome α → Prop
  | timeout => False
  | thrown => True
  | undefined => False
  | done _ _ => True

/-- Changes the result. -/
def map (f : α → β) (x : Outcome α) : Outcome β := x.bind fun a s => done (f a) s

@[simp] theorem bind_timeout (f : α → IStream → Outcome β) : timeout.bind f = timeout := rfl

@[simp] theorem bind_thrown (f : α → IStream → Outcome β) : thrown.bind f = thrown := rfl

@[simp] theorem bind_undefined (f : α → IStream → Outcome β) : undefined.bind f = undefined := rfl

@[simp] theorem bind_done (a : α) (s : IStream) (f : α → IStream → Outcome β) :
    (done a s).bind f = f a s := rfl

@[simp] theorem map_done (f : α → β) (a : α) (s : IStream) :
    (done a s).map f = done (f a) s := rfl

theorem bind_eq_done {x : Outcome α} {f : α → IStream → Outcome β} {b : β} {s' : IStream}
    (h : x.bind f = done b s') : ∃ a s, x = done a s ∧ f a s = done b s' := by
  cases x with
  | timeout => simp at h
  | thrown => simp at h
  | undefined => simp at h
  | done a s => exact ⟨a, s, rfl, h⟩

theorem map_eq_done {x : Outcome α} {f : α → β} {b : β} {s' : IStream}
    (h : x.map f = done b s') : ∃ a, x = done a s' ∧ f a = b := by
  obtain ⟨a, s, hx, hd⟩ := bind_eq_done h
  cases hd
  exact ⟨a, hx, rfl⟩

/-- More steps do not change a bind that was given enough of them. -/
theorem bind_mono {x x' : Outcome α} {f f' : α → IStream → Outcome β}
    (hx : x ≠ timeout → x' = x) (hf : ∀ a s, f a s ≠ timeout → f' a s = f a s)
    (h : x.bind f ≠ timeout) : x'.bind f' = x.bind f := by
  cases x with
  | timeout => exact absurd rfl h
  | thrown => rw [hx (by simp)]; rfl
  | undefined => rw [hx (by simp)]; rfl
  | done a s => rw [hx (by simp)]; exact hf a s h

theorem Halts.ne_timeout {x : Outcome α} (h : x.Halts) : x ≠ timeout := by
  rintro rfl
  exact h

/-- The first of two readers that come to an end one after the other has come to its end. -/
theorem Halts.of_bind {x : Outcome α} {f : α → IStream → Outcome β} (h : (x.bind f).Halts) :
    x.Halts := by
  cases x with
  | timeout => exact h
  | thrown => trivial
  | undefined => exact h
  | done a s => trivial

end Outcome

end CppTorrent.Lib.Stream
