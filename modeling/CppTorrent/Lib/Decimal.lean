import Mathlib.Data.List.Lex
import Mathlib.Tactic

/-! # Decimal numerals as byte strings

Formatted output writes a number as the shortest decimal numeral (`decimal`, `decimalInt`); formatted
input takes the longest run of digits at the front of the text (`span isDigit`) and reads its value
(`value`). A printed numeral followed by a non-digit is read back exactly (`takeWhile_decimal`,
`value_decimal`), and no run of digits is shorter than the numeral of its value
(`length_decimal_value`). -/

namespace CppTorrent.Lib.Decimal

/-- The digits `'0'`, …, `'9'`. -/
def isDigit (b : UInt8) : Bool := decide (48 ≤ b.toNat) && decide (b.toNat ≤ 57)

/-- The shortest decimal numeral of `n`. -/
def decimal (n : ℕ) : List UInt8 := (Nat.toDigits 10 n).map fun c => c.toNat.toUInt8

/-- The value of a digit. -/
def digitVal (b : UInt8) : ℕ := b.toNat - 48

/-- The value of a run of digits. -/
def value (ds : List UInt8) : ℕ := ds.foldl (fun a d => 10 * a + digitVal d) 0

/-- The numeral of an integer, with a sign if it is negative. -/
def decimalInt : ℤ → List UInt8
  | .ofNat n => decimal n
  | .negSucc n => 45 :: decimal (n + 1)

theorem toNat_of_isDigit {c : Char} (h : c.isDigit = true) : 48 ≤ c.toNat ∧ c.toNat ≤ 57 := by
  simp only [Char.isDigit, Bool.and_eq_true, decide_eq_true_eq] at h
  exact ⟨UInt32.le_iff_toNat_le.mp h.1, UInt32.le_iff_toNat_le.mp h.2⟩

theorem toNat_toUInt8_of_isDigit {c : Char} (h : c.isDigit = true) :
    c.toNat.toUInt8.toNat = c.toNat := by
  have := toNat_of_isDigit h
  simp only [Nat.toUInt8_eq, UInt8.toNat_ofNat']
  omega

theorem isDigit_of_mem_decimal {n : ℕ} {b : UInt8} (h : b ∈ decimal n) : isDigit b = true := by
  obtain ⟨c, hc, rfl⟩ := List.mem_map.mp h
  have hd := Nat.isDigit_of_mem_toDigits (by decide) (by decide) hc
  have := toNat_of_isDigit hd
  simp only [isDigit, toNat_toUInt8_of_isDigit hd, Bool.and_eq_true, decide_eq_true_eq]
  omega

theorem decimal_ne_nil (n : ℕ) : decimal n ≠ [] := by
  simp [decimal, Nat.toDigits_ne_nil]

theorem length_decimal_pos (n : ℕ) : 0 < (decimal n).length :=
  List.length_pos_of_ne_nil (decimal_ne_nil n)

theorem length_decimal_le_iff {n k : ℕ} (hk : 0 < k) : (decimal n).length ≤ k ↔ n < 10 ^ k := by
  rw [decimal, List.length_map, Nat.length_toDigits_le_iff (by decide) hk]

theorem length_decimal_mono {m n : ℕ} (h : m ≤ n) : (decimal m).length ≤ (decimal n).length := by
  rw [length_decimal_le_iff (length_decimal_pos n)]
  exact lt_of_le_of_lt h ((length_decimal_le_iff (length_decimal_pos n)).mp le_rfl)

theorem foldl_value_map (cs : List Char) (hcs : ∀ c ∈ cs, c.isDigit = true) : ∀ a : ℕ,
    (cs.map fun c => c.toNat.toUInt8).foldl (fun a d => 10 * a + digitVal d) a =
      Nat.ofDigitChars 10 cs a := by
  induction cs with
  | nil => intro a; simp
  | cons c cs ih =>
    intro a
    have hc := toNat_toUInt8_of_isDigit (hcs c (by simp))
    rw [List.map_cons, List.foldl_cons, ih (fun d hd => hcs d (by simp [hd])),
      Nat.ofDigitChars_cons]
    simp only [digitVal, hc]
    rfl

/-- **The numeral of `n` has the value `n`.** -/
theorem value_decimal (n : ℕ) : value (decimal n) = n := by
  unfold value decimal
  rw [foldl_value_map _ fun c hc => Nat.isDigit_of_mem_toDigits (by decide) (by decide) hc]
  exact Nat.ofDigitChars_ten_toDigits

theorem decimal_injective {m n : ℕ} (h : decimal m = decimal n) : m = n := by
  rw [← value_decimal m, h, value_decimal]

theorem foldl_value_lt (ds : List UInt8) (hds : ∀ d ∈ ds, isDigit d = true) : ∀ a : ℕ,
    ds.foldl (fun a d => 10 * a + digitVal d) a < (a + 1) * 10 ^ ds.length := by
  induction ds with
  | nil => intro a; simp
  | cons d ds ih =>
    intro a
    have hd : digitVal d ≤ 9 := by
      have := hds d (by simp)
      simp only [isDigit, Bool.and_eq_true, decide_eq_true_eq] at this
      unfold digitVal; omega
    rw [List.foldl_cons, List.length_cons, pow_succ]
    refine lt_of_lt_of_le (ih (fun x hx => hds x (by simp [hx])) _) ?_
    calc (10 * a + digitVal d + 1) * 10 ^ ds.length
        ≤ (10 * a + 10) * 10 ^ ds.length := Nat.mul_le_mul_right _ (by omega)
      _ = (a + 1) * (10 ^ ds.length * 10) := by ring

theorem value_lt {ds : List UInt8} (hds : ∀ d ∈ ds, isDigit d = true) :
    value ds < 10 ^ ds.length := by
  have h := foldl_value_lt ds hds 0
  rwa [zero_add, one_mul] at h

/-- **No run of digits is shorter than the numeral of its value.** -/
theorem length_decimal_value {ds : List UInt8} (hds : ∀ d ∈ ds, isDigit d = true)
    (hne : ds ≠ []) : (decimal (value ds)).length ≤ ds.length :=
  (length_decimal_le_iff (List.length_pos_of_ne_nil hne)).mpr (value_lt hds)

/-! ### The run of digits at the front of a text -/

/-- The text does not begin with a digit. -/
def Stops (rest : List UInt8) : Prop := ∀ b, rest.head? = some b → isDigit b = false

theorem stops_cons {b : UInt8} {rest : List UInt8} (h : isDigit b = false) : Stops (b :: rest) := by
  intro c hc
  simp only [List.head?_cons, Option.some.injEq] at hc
  exact hc ▸ h

theorem takeWhile_stops {rest : List UInt8} (h : Stops rest) : rest.takeWhile isDigit = [] := by
  cases rest with
  | nil => rfl
  | cons b rest => simp [h b rfl]

theorem dropWhile_stops {rest : List UInt8} (h : Stops rest) : rest.dropWhile isDigit = rest := by
  cases rest with
  | nil => rfl
  | cons b rest => simp [h b rfl]

/-- A run of digits in front of something else is found. -/
theorem takeWhile_digits {ds rest : List UInt8} (hds : ∀ d ∈ ds, isDigit d = true) (h : Stops rest) :
    (ds ++ rest).takeWhile isDigit = ds := by
  rw [List.takeWhile_append_of_pos hds, takeWhile_stops h, List.append_nil]

theorem dropWhile_digits {ds rest : List UInt8} (hds : ∀ d ∈ ds, isDigit d = true) (h : Stops rest) :
    (ds ++ rest).dropWhile isDigit = rest := by
  rw [List.dropWhile_append_of_pos hds, dropWhile_stops h]

theorem takeWhile_decimal (n : ℕ) {rest : List UInt8} (h : Stops rest) :
    (decimal n ++ rest).takeWhile isDigit = decimal n :=
  takeWhile_digits (fun _ => isDigit_of_mem_decimal) h

theorem dropWhile_decimal (n : ℕ) {rest : List UInt8} (h : Stops rest) :
    (decimal n ++ rest).dropWhile isDigit = rest :=
  dropWhile_digits (fun _ => isDigit_of_mem_decimal) h

/-- **A numeral in front of something else can be told from what follows.** -/
theorem decimal_append_inj {m n : ℕ} {r1 r2 : List UInt8} (h1 : Stops r1) (h2 : Stops r2)
    (h : decimal m ++ r1 = decimal n ++ r2) : m = n ∧ r1 = r2 := by
  have ht := congrArg (List.takeWhile isDigit) h
  have hd := congrArg (List.dropWhile isDigit) h
  rw [takeWhile_decimal m h1, takeWhile_decimal n h2] at ht
  rw [dropWhile_decimal m h1, dropWhile_decimal n h2] at hd
  exact ⟨decimal_injective ht, hd⟩

/-- The first byte of a numeral is a digit. -/
theorem decimal_eq_cons (n : ℕ) : ∃ d ds, decimal n = d :: ds ∧ isDigit d = true := by
  obtain ⟨d, ds, h⟩ := List.exists_cons_of_ne_nil (decimal_ne_nil n)
  exact ⟨d, ds, h, isDigit_of_mem_decimal (n := n) (by rw [h]; simp)⟩

end CppTorrent.Lib.Decimal
