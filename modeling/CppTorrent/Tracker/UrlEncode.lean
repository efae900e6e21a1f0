import CppTorrent.Lib.Formatting
import CppTorrent.Lib.PercentCoding

/-! # Bytes in a URL

`UrlEncode` writes letters, digits and four other characters as they are and formats every other byte as
a percent sign and a field of two uppercase hexadecimal digits. A `char` is signed, so a byte above 127
reaches `isalnum` as a negative number and is cast to an unsigned one before it is formatted. What is
written for a byte is the byte or an escape for it (`escapes_encodeImpl`); the rest is `Lib.PercentCoding`
(`urlEncode_invertible`). -/

namespace CppTorrent.Tracker.UrlEncode

open CppTorrent.Lib.Formatting CppTorrent.Lib.Formatting.OStream CppTorrent.Lib.PercentCoding

/-- `isalnum` in the C locale. -/
def isAlnum (c : ℤ) : Bool :=
  (decide (48 ≤ c) && decide (c ≤ 57)) || (decide (65 ≤ c) && decide (c ≤ 90)) ||
    (decide (97 ≤ c) && decide (c ≤ 122))

/-- `encode_impl`. -/
def encodeImpl (symb : Int8) : List UInt8 :=
  if isAlnum symb.toInt || symb == 45 || symb == 95 || symb == 46 || symb == 126 then [symb.toUInt8]
  else
    let encSs := (((empty.putChar 37).setWidth 2).setFill 48).setHex.setUppercase
    (encSs.putUnsigned symb.toUInt8.toNat).text

/-- `UrlEncode`. -/
def urlEncode (urlToEncode : List UInt8) : List UInt8 :=
  urlToEncode.foldl (fun qstr byte => qstr ++ encodeImpl byte.toInt8) []

/-- The digits, the letters and the characters `-`, `_`, `.` and `~`. -/
def Unreserved (b : UInt8) : Prop :=
  (48 ≤ b.toNat ∧ b.toNat ≤ 57) ∨ (65 ≤ b.toNat ∧ b.toNat ≤ 90) ∨
    (97 ≤ b.toNat ∧ b.toNat ≤ 122) ∨ b = 45 ∨ b = 95 ∨ b = 46 ∨ b = 126

instance (b : UInt8) : Decidable (Unreserved b) := inferInstanceAs (Decidable (_ ∨ _))

/-! ### One byte -/

/-- The number that `isalnum` is given. -/
theorem toInt_toInt8 (b : UInt8) :
    b.toInt8.toInt = if b.toNat < 128 then (b.toNat : ℤ) else b.toNat - 256 := by
  have h : b.toInt8.toInt = if 2 * b.toNat < 2 ^ 8 then (b.toNat : ℤ) else b.toNat - (2 ^ 8 : ℕ) :=
    BitVec.toInt_eq_toNat_cond b.toBitVec
  rw [h]
  split_ifs <;> omega

/-- No byte above 127 is a letter or a digit. -/
theorem isAlnum_iff (b : UInt8) : isAlnum b.toInt8.toInt = true ↔
    (48 ≤ b.toNat ∧ b.toNat ≤ 57) ∨ (65 ≤ b.toNat ∧ b.toNat ≤ 90) ∨
      (97 ≤ b.toNat ∧ b.toNat ≤ 122) := by
  have hlt := b.toNat_lt
  unfold isAlnum
  rw [toInt_toInt8]
  simp only [Bool.or_eq_true, Bool.and_eq_true, decide_eq_true_eq]
  split_ifs <;> omega

/-- A byte is written as it is exactly if it is unreserved. -/
theorem plain_iff (b : UInt8) : (isAlnum b.toInt8.toInt || b.toInt8 == 45 || b.toInt8 == 95 ||
    b.toInt8 == 46 || b.toInt8 == 126) = true ↔ Unreserved b := by
  have hchar : ∀ c : UInt8, (b.toInt8 == c.toInt8) = true ↔ b = c := fun c => by
    rw [beq_iff_eq]
    exact ⟨congrArg Int8.toUInt8, congrArg UInt8.toInt8⟩
  have hminus : (b.toInt8 == 45) = true ↔ b = 45 := hchar 45
  have hunderscore : (b.toInt8 == 95) = true ↔ b = 95 := hchar 95
  have hdot : (b.toInt8 == 46) = true ↔ b = 46 := hchar 46
  have htilde : (b.toInt8 == 126) = true ↔ b = 126 := hchar 126
  rw [Bool.or_eq_true, Bool.or_eq_true, Bool.or_eq_true, Bool.or_eq_true, isAlnum_iff, hminus,
    hunderscore, hdot, htilde]
  simp only [Unreserved, or_assoc]

theorem hexVal_hexDigit : ∀ d < 16, hexVal (hexDigit true d) = some d := by decide

theorem isUpperHex_hexDigit : ∀ d < 16, IsUpperHex (hexDigit true d) := by decide

/-- The two digits of a byte. -/
theorem hexByte_hexDigit (b : UInt8) :
    hexByte (hexDigit true (b.toNat / 16)) (hexDigit true (b.toNat % 16)) = some b := by
  have hlt := b.toNat_lt
  unfold hexByte
  rw [hexVal_hexDigit _ (by omega), hexVal_hexDigit _ (by omega)]
  simp only [Option.bind_eq_bind, Option.bind_some, Nat.div_add_mod, UInt8.ofNat_toNat]
  rfl

/-- **What is written for a byte**: the byte itself or an escape for it. -/
theorem escapes_encodeImpl (b : UInt8) : Escapes Unreserved b (encodeImpl b.toInt8) := by
  have hlt := b.toNat_lt
  unfold encodeImpl
  split_ifs with hplain
  · exact .plain ((plain_iff b).mp hplain)
  · have htext : ((((empty.putChar 37).setWidth 2).setFill 48).setHex.setUppercase.putUnsigned
        b.toInt8.toUInt8.toNat).text =
          [percent, hexDigit true (b.toNat / 16), hexDigit true (b.toNat % 16)] :=
      congrArg (List.cons 37) (hexadecimal_padded true b.toNat_lt)
    dsimp only
    rw [htext]
    exact .escape (isUpperHex_hexDigit _ (by omega)) (isUpperHex_hexDigit _ (by omega))
      (hexByte_hexDigit b)

/-! ### Byte strings -/

/-- The bytes are written one after the other. -/
theorem urlEncode_eq (s : List UInt8) : urlEncode s = s.flatMap fun b => encodeImpl b.toInt8 := by
  unfold urlEncode
  rw [List.foldl_append_eq_append]
  rfl

/-- **`UrlEncode` is invertible**: it writes unreserved bytes and escapes, which percent-decoding takes
back, and byte by byte. -/
theorem urlEncode_invertible (s t : List UInt8) :
    Encoded Unreserved (urlEncode s) ∧ percentDecode (urlEncode s) = s ∧
      urlEncode (s ++ t) = urlEncode s ++ urlEncode t ∧ Function.Injective urlEncode := by
  have hpercent : ¬ Unreserved percent := by decide
  have hdecode : ∀ s, percentDecode (urlEncode s) = s := fun s => by
    rw [urlEncode_eq]
    exact percentDecode_flatMap hpercent escapes_encodeImpl s
  refine ⟨?_, hdecode s, ?_, Function.LeftInverse.injective hdecode⟩
  · rw [urlEncode_eq]
    exact encoded_flatMap escapes_encodeImpl s
  · rw [urlEncode_eq, urlEncode_eq, urlEncode_eq, List.flatMap_append]

/-- A letter, a byte above 127 and a percent sign. -/
example : urlEncode [97, 200, 37] = [97, 37, 67, 56, 37, 50, 53] := by decide

end CppTorrent.Tracker.UrlEncode
