import Mathlib.Tactic

/-! # Percent-encoding

A percent-encoded text consists of plain bytes and of escapes, a percent sign with two hexadecimal
digits (`Encoded`). `percentDecode` replaces every escape by the byte that its digits stand for and
leaves all other bytes alone. An encoder writes something for each byte, the byte itself or an escape
for it (`Escapes`). What it writes is percent-encoded (`encoded_flatMap`), and as long as the percent
sign is not plain, it is decoded to what has been encoded (`percentDecode_flatMap`). The induction needs
this for a text with something behind it (`percentDecode_flatMap_append`). -/

namespace CppTorrent.Lib.PercentCoding

/-- The percent sign. -/
def percent : UInt8 := 37

/-- The value of a hexadecimal digit, of either case. -/
def hexVal (b : UInt8) : Option ℕ :=
  if 48 ≤ b.toNat ∧ b.toNat ≤ 57 then some (b.toNat - 48)
  else if 65 ≤ b.toNat ∧ b.toNat ≤ 70 then some (b.toNat - 55)
  else if 97 ≤ b.toNat ∧ b.toNat ≤ 102 then some (b.toNat - 87)
  else none

/-- The digits `'0'`, …, `'9'`, `'A'`, …, `'F'`. -/
def IsUpperHex (b : UInt8) : Prop := (48 ≤ b.toNat ∧ b.toNat ≤ 57) ∨ (65 ≤ b.toNat ∧ b.toNat ≤ 70)

instance (b : UInt8) : Decidable (IsUpperHex b) := inferInstanceAs (Decidable (_ ∨ _))

/-- The byte that two hexadecimal digits stand for. -/
def hexByte (high low : UInt8) : Option UInt8 := do
  let x ← hexVal high
  let y ← hexVal low
  return UInt8.ofNat (16 * x + y)

/-- Replaces the escapes in a text. A percent sign without two digits behind it is left alone. -/
def percentDecode : List UInt8 → List UInt8
  | b :: high :: low :: rest =>
    if b = percent then
      match hexByte high low with
      | some v => v :: percentDecode rest
      | none => b :: percentDecode (high :: low :: rest)
    else b :: percentDecode (high :: low :: rest)
  | rest => rest

/-- The text consists of plain bytes and of escapes with uppercase digits. -/
inductive Encoded (plain : UInt8 → Prop) : List UInt8 → Prop
  | nil : Encoded plain []
  | plain {b : UInt8} {rest : List UInt8} : plain b → Encoded plain rest → Encoded plain (b :: rest)
  | escape {high low : UInt8} {rest : List UInt8} : IsUpperHex high → IsUpperHex low →
      Encoded plain rest → Encoded plain (percent :: high :: low :: rest)

/-- What may be written for a byte. -/
inductive Escapes (plain : UInt8 → Prop) (b : UInt8) : List UInt8 → Prop
  | plain : plain b → Escapes plain b [b]
  | escape {high low : UInt8} : IsUpperHex high → IsUpperHex low → hexByte high low = some b →
      Escapes plain b [percent, high, low]

/-- The bytes of a percent-encoded text. -/
theorem Encoded.mem {plain : UInt8 → Prop} {text : List UInt8} (h : Encoded plain text) :
    ∀ b ∈ text, plain b ∨ b = percent ∨ IsUpperHex b := by
  induction h with
  | nil => simp
  | plain hb _ ih => exact List.forall_mem_cons.mpr ⟨Or.inl hb, ih⟩
  | escape hhigh hlow _ ih =>
    exact List.forall_mem_cons.mpr ⟨Or.inr (Or.inl rfl), List.forall_mem_cons.mpr
      ⟨Or.inr (Or.inr hhigh), List.forall_mem_cons.mpr ⟨Or.inr (Or.inr hlow), ih⟩⟩⟩

/-! ### Decoding -/

theorem percentDecode_cons_of_ne {b : UInt8} (h : b ≠ percent) (rest : List UInt8) :
    percentDecode (b :: rest) = b :: percentDecode rest := by
  rcases rest with _ | ⟨high, _ | ⟨low, rest⟩⟩
  · rfl
  · rfl
  · rw [percentDecode, if_neg h]

theorem percentDecode_escape {high low v : UInt8} (h : hexByte high low = some v)
    (rest : List UInt8) :
    percentDecode (percent :: high :: low :: rest) = v :: percentDecode rest := by
  rw [percentDecode, if_pos rfl, h]

section Encoder

variable {plain : UInt8 → Prop} {enc : UInt8 → List UInt8}

/-- What is written for a byte is decoded to it, whatever follows. -/
theorem Escapes.percentDecode_append {b : UInt8} {out : List UInt8} (hpercent : ¬ plain percent)
    (h : Escapes plain b out) (rest : List UInt8) :
    percentDecode (out ++ rest) = b :: percentDecode rest := by
  rcases h with hplain | ⟨-, -, hbyte⟩
  · refine percentDecode_cons_of_ne (fun heq => ?_) rest
    exact hpercent (heq ▸ hplain)
  · exact percentDecode_escape hbyte rest

theorem Escapes.encoded_append {b : UInt8} {out rest : List UInt8} (h : Escapes plain b out)
    (hrest : Encoded plain rest) : Encoded plain (out ++ rest) := by
  rcases h with hplain | ⟨hhigh, hlow, -⟩
  · exact .plain hplain hrest
  · exact .escape hhigh hlow hrest

/-- **An encoder writes percent-encoded text.** -/
theorem encoded_flatMap (henc : ∀ b, Escapes plain b (enc b)) : ∀ s : List UInt8,
    Encoded plain (s.flatMap enc)
  | [] => .nil
  | b :: s => by
    rw [List.flatMap_cons]
    exact (henc b).encoded_append (encoded_flatMap henc s)

/-- **The text is decoded to what has been encoded, whatever follows it.** -/
theorem percentDecode_flatMap_append (hpercent : ¬ plain percent)
    (henc : ∀ b, Escapes plain b (enc b)) (rest : List UInt8) : ∀ s : List UInt8,
    percentDecode (s.flatMap enc ++ rest) = s ++ percentDecode rest
  | [] => rfl
  | b :: s => by
    rw [List.flatMap_cons, List.append_assoc, (henc b).percentDecode_append hpercent,
      percentDecode_flatMap_append hpercent henc rest s]
    rfl

/-- **The text is decoded to what has been encoded.** -/
theorem percentDecode_flatMap (hpercent : ¬ plain percent) (henc : ∀ b, Escapes plain b (enc b))
    (s : List UInt8) : percentDecode (s.flatMap enc) = s := by
  have h := percentDecode_flatMap_append hpercent henc [] s
  rw [List.append_nil] at h
  exact h.trans (List.append_nil s)

end Encoder

end CppTorrent.Lib.PercentCoding
