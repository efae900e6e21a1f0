import CppTorrent.Dht.Metric

/-! # Bit fields and their bytes

A `Bitfield` is a `boost::dynamic_bitset<uint8_t>`: the list of its bits. `to_block_range` packs them
eight to a block, the first position lowest, and leaves the unused bits of the last block zero;
`GetCast` reverses the bits of every block, so that the first position is the highest bit of the first
byte. `Bitfield(bytes)` goes the other way (`Dht.Metric.bitfield`).

Both directions put position `i` at bit `7 - i % 8` of byte `i / 8` (`testBit_getCast`,
`getElem?_bitfield`), so they undo each other: `resize_bitfield_getCast` for any number of bits,
`getCast_bitfield` for whole bytes. -/

namespace CppTorrent.Wire.Bitfield

open CppTorrent.Dht.Metric

/-- A block of eight bits, the first one lowest. -/
def blockOf (bit : ℕ → Bool) : UInt8 := UInt8.ofNat (Nat.ofBits fun k : Fin 8 => bit k)

/-- `boost::to_block_range`. -/
def toBlockRange (bits : List Bool) : List UInt8 :=
  (List.range ((bits.length + 7) / 8)).map fun j => blockOf fun k => bits.getD (8 * j + k) false

/-- `Bitfield::GetCast`. -/
def getCast (bits : List Bool) : List UInt8 := (toBlockRange bits).map reverseByte

/-- `Bitfield::Resize`. -/
def resize (newSize : ℕ) (bits : List Bool) : List Bool :=
  bits.take newSize ++ List.replicate (newSize - bits.length) false

/-! ### Bytes by their bits -/

theorem testBit_blockOf (bit : ℕ → Bool) {k : ℕ} (hk : k < 8) :
    (blockOf bit).toNat.testBit k = bit k := by
  have hlt : Nat.ofBits (fun k : Fin 8 => bit k) < 256 := Nat.ofBits_lt_two_pow _
  have hnat : (blockOf bit).toNat = Nat.ofBits fun k : Fin 8 => bit k := by
    show (UInt8.ofNat _).toNat = _
    rw [UInt8.toNat_ofNat']
    omega
  rw [hnat, Nat.testBit_ofBits_lt _ k hk]

theorem testBit_reverseByte_of_lt (b : UInt8) {k : ℕ} (hk : k < 8) :
    (reverseByte b).toNat.testBit k = b.toNat.testBit (7 - k) :=
  testBit_reverseByte b ⟨k, hk⟩

/-- A byte is determined by its bits. -/
theorem eq_of_testBit {a b : UInt8} (h : ∀ k < 8, a.toNat.testBit k = b.toNat.testBit k) : a = b := by
  refine UInt8.toNat_inj.mp (Nat.eq_of_testBit_eq fun k => ?_)
  rcases Nat.lt_or_ge k 8 with hk | hk
  · exact h k hk
  · have hpow : 2 ^ 8 ≤ 2 ^ k := Nat.pow_le_pow_right (by decide) hk
    have ha : a.toNat < 2 ^ k := a.toNat_lt.trans_le hpow
    have hb : b.toNat < 2 ^ k := b.toNat_lt.trans_le hpow
    rw [Nat.testBit_lt_two_pow ha, Nat.testBit_lt_two_pow hb]

/-! ### `GetCast` -/

theorem length_getCast (bits : List Bool) : (getCast bits).length = (bits.length + 7) / 8 := by
  simp [getCast, toBlockRange]

theorem getElem?_getCast {bits : List Bool} {q : ℕ} (hq : q < (bits.length + 7) / 8) :
    (getCast bits)[q]? = some (reverseByte (blockOf fun k => bits.getD (8 * q + k) false)) := by
  unfold getCast toBlockRange
  rw [List.getElem?_map, List.getElem?_map, List.getElem?_range hq]
  rfl

/-- **Position `8 q + k` is bit `7 - k` of byte `q`**; the spare bits are zero. -/
theorem testBit_getCast (bits : List Bool) {q k : ℕ} (hk : k < 8) (hq : q < (bits.length + 7) / 8) :
    ((getCast bits).getD q 0).toNat.testBit (7 - k) = bits.getD (8 * q + k) false := by
  have hback : 7 - (7 - k) = k := by omega
  rw [List.getD_eq_getElem?_getD, getElem?_getCast hq, Option.getD_some,
    testBit_reverseByte_of_lt _ (by omega), hback, testBit_blockOf _ hk]

/-! ### `Bitfield(bytes)` -/

theorem length_bitfield (bytes : List UInt8) : (bitfield bytes).length = 8 * bytes.length := by
  have hlen : ∀ b : UInt8, (bitsOfByte b).length = 8 := fun _ => rfl
  rw [bitfield_eq, List.length_flatMap]
  simp [hlen, Nat.mul_comm]

theorem getElem?_bitfield {bytes : List UInt8} {i : ℕ} (hi : i < 8 * bytes.length) :
    (bitfield bytes)[i]? = some ((bytes.getD (i / 8) 0).toNat.testBit (7 - i % 8)) := by
  have hdiv : 8 * (i / 8) + i % 8 = i := by omega
  have hmod : i % 8 < 8 := Nat.mod_lt _ (by decide)
  have htest := test_bitfield bytes (i / 8) (i % 8) hmod (by omega)
  rwa [hdiv] at htest

/-! ### The round trips -/

/-- **The bytes of a bit field give it back**, once the spare bits are cut off. -/
theorem resize_bitfield_getCast (bits : List Bool) :
    resize bits.length (bitfield (getCast bits)) = bits := by
  have hlen : bits.length ≤ (bitfield (getCast bits)).length := by
    rw [length_bitfield, length_getCast]
    omega
  unfold resize
  rw [Nat.sub_eq_zero_of_le hlen, List.replicate_zero, List.append_nil]
  refine List.ext_getElem? fun i => ?_
  rcases Nat.lt_or_ge i bits.length with hi | hi
  · have hlt : i < 8 * (getCast bits).length := by
      rw [length_getCast]
      omega
    have hdiv : 8 * (i / 8) + i % 8 = i := by omega
    rw [List.getElem?_take_of_lt hi, getElem?_bitfield hlt,
      testBit_getCast bits (Nat.mod_lt _ (by decide)) (by omega), hdiv,
      List.getD_eq_getElem?_getD, List.getElem?_eq_getElem hi, Option.getD_some]
  · rw [List.getElem?_take_eq_none hi, List.getElem?_eq_none hi]

/-- **Bytes are the bytes of their bits.** -/
theorem getCast_bitfield (bytes : List UInt8) : getCast (bitfield bytes) = bytes := by
  have hlen : (getCast (bitfield bytes)).length = bytes.length := by
    rw [length_getCast, length_bitfield]
    omega
  refine List.ext_getElem hlen fun q hq hq' => ?_
  rw [length_getCast] at hq
  have hget := getElem?_getCast hq
  rw [List.getElem?_eq_getElem (by rwa [length_getCast])] at hget
  rw [Option.some.inj hget]
  refine eq_of_testBit fun k hk => ?_
  have hi : 8 * q + (7 - k) < 8 * bytes.length := by omega
  have hdiv : (8 * q + (7 - k)) / 8 = q := by omega
  have hmod : 7 - (8 * q + (7 - k)) % 8 = k := by omega
  rw [testBit_reverseByte_of_lt _ hk, testBit_blockOf _ (by omega), List.getD_eq_getElem?_getD,
    getElem?_bitfield hi, Option.getD_some, hdiv, hmod, List.getD_eq_getElem?_getD,
    List.getElem?_eq_getElem hq', Option.getD_some]

end CppTorrent.Wire.Bitfield
