import CppTorrent.Lib.Decimal

/-! # Formatted output

An output stream is the text written so far and the state of its formatting: the width of the next
field, the character that fills a field, the base of numbers and the case of their digits. Every
insertion fills its field from the left up to the width, which it takes back to zero; everything else
stays set. -/

namespace CppTorrent.Lib.Formatting

open CppTorrent.Lib.Decimal

/-- The base in which numbers are written. -/
inductive Base where
  | dec
  | hex
  deriving DecidableEq

/-- An output stream. -/
structure OStream where
  text : List UInt8
  width : ℕ
  fill : UInt8
  base : Base
  uppercase : Bool

/-- A stream just constructed: it fills with blanks and writes decimal numbers. -/
def empty : OStream := ⟨[], 0, 32, .dec, false⟩

/-- The hexadecimal digit of a number below 16. -/
def hexDigit (upper : Bool) (d : ℕ) : UInt8 :=
  if d < 10 then UInt8.ofNat (48 + d) else if upper then UInt8.ofNat (55 + d) else UInt8.ofNat (87 + d)

/-- The shortest hexadecimal numeral of `n`. -/
def hexadecimal (upper : Bool) (n : ℕ) : List UInt8 :=
  if n = 0 then [hexDigit upper 0] else ((Nat.digits 16 n).map (hexDigit upper)).reverse

namespace OStream

/-- Inserts a field. -/
def insert (field : List UInt8) (s : OStream) : OStream :=
  { s with
    text := s.text ++ (List.replicate (s.width - field.length) s.fill ++ field)
    width := 0 }

/-- `<<` for a character. -/
def putChar (c : UInt8) (s : OStream) : OStream := s.insert [c]

/-- `<<` for an unsigned number. -/
def putUnsigned (n : ℕ) (s : OStream) : OStream :=
  match s.base with
  | .dec => s.insert (decimal n)
  | .hex => s.insert (hexadecimal s.uppercase n)

/-- `<< std::setw(n)`. -/
def setWidth (n : ℕ) (s : OStream) : OStream := { s with width := n }

/-- `<< std::setfill(c)`. -/
def setFill (c : UInt8) (s : OStream) : OStream := { s with fill := c }

/-- `<< std::hex`. -/
def setHex (s : OStream) : OStream := { s with base := .hex }

/-- `<< std::uppercase`. -/
def setUppercase (s : OStream) : OStream := { s with uppercase := true }

end OStream

/-- **A number below 256 in a field of two characters that is filled with zeros**: its two digits. -/
theorem hexadecimal_padded (upper : Bool) {n : ℕ} (h : n < 256) :
    List.replicate (2 - (hexadecimal upper n).length) 48 ++ hexadecimal upper n =
      [hexDigit upper (n / 16), hexDigit upper (n % 16)] := by
  have hzero : hexDigit upper 0 = 48 := rfl
  rcases Nat.lt_or_ge n 16 with hlow | hhigh
  · have hdiv : n / 16 = 0 := Nat.div_eq_of_lt hlow
    have hone : hexadecimal upper n = [hexDigit upper n] := by
      unfold hexadecimal
      split_ifs with h0
      · rw [h0]
      · rw [Nat.digits_of_lt 16 n h0 hlow]
        rfl
    rw [hone, hdiv, hzero, Nat.mod_eq_of_lt hlow]
    rfl
  · have htwo : hexadecimal upper n = [hexDigit upper (n / 16), hexDigit upper (n % 16)] := by
      have hdigits : Nat.digits 16 n = [n % 16, n / 16] := by
        rw [Nat.digits_def' (by decide) (by omega), Nat.digits_of_lt 16 (n / 16) (by omega) (by omega)]
      unfold hexadecimal
      rw [if_neg (by omega), hdigits]
      rfl
    rw [htwo]
    rfl

end CppTorrent.Lib.Formatting
