import CppTorrent.Dht.Nearest
import Mathlib.Data.Nat.Bitwise

/-! # The two distances of the route table

The buckets are chosen by `BucketDistance`, which counts the common bits of two ids from position 0
upwards. `FindNearestList` sorts by `XORDistance` in the order of the bit sets, in which the highest
position decides. `Bitfield` reverses each byte, so position 0 is the most significant bit of the
first byte (`test_bitfield`): the first distance looks at an id from its front, the second from its
back.

`metrics_agree_iff` says when the order of the second follows that of the first: only if, at the last
position at which the two nodes differ, it is the one with the longer prefix that agrees with the
hash. -/

namespace CppTorrent.Dht.Metric

open CppTorrent.Dht.Guid CppTorrent.Dht.Nearest

/-! ### Ids from bytes -/

/-- `ReverseByte`. -/
def reverseByte (b : UInt8) : UInt8 :=
  let b := (b &&& 0xF0) >>> 4 ||| (b &&& 0x0F) <<< 4
  let b := (b &&& 0xCC) >>> 2 ||| (b &&& 0x33) <<< 2
  (b &&& 0xAA) >>> 1 ||| (b &&& 0x55) <<< 1

/-- `dynamic_bitset::append` of a block: bit `k` of the block goes to position `size + k`. -/
def append (bits : List Bool) (block : UInt8) : List Bool :=
  bits ++ (List.range 8).map block.toNat.testBit

/-- `Bitfield(data, size)`. -/
def bitfield (data : List UInt8) : List Bool :=
  data.foldl (fun bits number => append bits (reverseByte number)) []

/-- The id built from the 20 bytes of a hash. -/
def guid (data : Vector UInt8 20) : GUID :=
  (BitVec.ofBoolListLE (bitfield data.toList)).setWidth sha1SizeBits

theorem testBit_reverseByte (b : UInt8) (k : Fin 8) :
    (reverseByte b).toNat.testBit k = b.toNat.testBit (7 - k) := by
  have h : ∀ (n : Fin 256) (k : Fin 8),
      (reverseByte (UInt8.ofNat n)).toNat.testBit k = (UInt8.ofNat n).toNat.testBit (7 - k) := by
    decide +kernel
  simpa using h ⟨b.toNat, b.toNat_lt⟩ k

/-- The bits of a byte, the most significant first. -/
def bitsOfByte (b : UInt8) : List Bool := (List.range 8).map fun k => b.toNat.testBit (7 - k)

theorem append_reverseByte (bits : List Bool) (b : UInt8) :
    append bits (reverseByte b) = bits ++ bitsOfByte b := by
  refine congrArg (bits ++ ·) (List.map_congr_left fun k hk => ?_)
  exact testBit_reverseByte b ⟨k, List.mem_range.mp hk⟩

theorem bitfield_eq (data : List UInt8) : bitfield data = data.flatMap bitsOfByte := by
  have hfold : ∀ (data : List UInt8) (bits : List Bool),
      data.foldl (fun bits number => append bits (reverseByte number)) bits =
        bits ++ data.flatMap bitsOfByte := by
    intro data
    induction data with
    | nil => simp
    | cons b data ih =>
      intro bits
      rw [List.foldl_cons, append_reverseByte, ih, List.flatMap_cons, List.append_assoc]
  exact hfold data []

/-- **Position `8 q + k` of an id is bit `7 - k` of byte `q`.** -/
theorem test_bitfield : ∀ (data : List UInt8) (q k : ℕ), k < 8 → q < data.length →
    (bitfield data)[8 * q + k]? = some ((data.getD q 0).toNat.testBit (7 - k))
  | [], _, _, _, hq => absurd hq (Nat.not_lt_zero _)
  | b :: data, 0, k, hk, _ => by
    have hlen : (bitsOfByte b).length = 8 := rfl
    rw [bitfield_eq, List.flatMap_cons, List.getElem?_append_left (by omega), bitsOfByte]
    simp [hk]
  | b :: data, q + 1, k, hk, hq => by
    have hlen : (bitsOfByte b).length = 8 := rfl
    have ih := test_bitfield data q k hk (by simpa using hq)
    rw [bitfield_eq] at ih
    rw [bitfield_eq, List.flatMap_cons, List.getElem?_append_right (by omega), hlen,
      show 8 * (q + 1) + k - 8 = 8 * q + k by omega, ih]
    rfl

/-! ### The distance of the buckets -/

/-- The ids agree at the first positions, as many as `agree` counts. -/
theorem test_eq_of_lt_agree (n1 n2 : GUID) : ∀ k i j : ℕ, i ≤ j → j < i + agree n1 n2 k i →
    test n1 j = test n2 j
  | 0, i, j, hij, hj => by
    rw [agree] at hj
    omega
  | k + 1, i, j, hij, hj => by
    rw [agree] at hj
    split_ifs at hj with ht
    · by_cases hi : j = i
      · rwa [hi]
      · exact test_eq_of_lt_agree n1 n2 k (i + 1) j (by omega) (by omega)
    · omega

/-- And they differ at the next one, if there is one. -/
theorem test_ne_of_agree_lt (n1 n2 : GUID) : ∀ k i : ℕ, agree n1 n2 k i < k →
    test n1 (i + agree n1 n2 k i) ≠ test n2 (i + agree n1 n2 k i)
  | 0, i, h => absurd h (Nat.not_lt_zero _)
  | k + 1, i, h => by
    rw [agree] at h ⊢
    split_ifs at h ⊢ with ht
    · have ih := test_ne_of_agree_lt n1 n2 k (i + 1) (by omega)
      rwa [show i + (agree n1 n2 k (i + 1) + 1) = i + 1 + agree n1 n2 k (i + 1) by omega]
    · exact ht

theorem commonPrefix_lt_of_ne {n1 n2 : GUID} (h : n2 ≠ n1) : commonPrefix n1 n2 < sha1SizeBits := by
  by_contra hle
  refine h (BitVec.eq_of_getLsbD_eq fun i hi => ?_)
  exact (test_eq_of_lt_agree n1 n2 sha1SizeBits 0 i (Nat.zero_le _)
    (by unfold commonPrefix at hle; omega)).symm

/-- For different ids nothing wraps around. -/
theorem bucketDistance_eq {n1 n2 : GUID} (h : n2 ≠ n1) :
    bucketDistance n1 n2 = sha1SizeBits - 1 - commonPrefix n1 n2 := by
  have hlt : agree n1 n2 sha1SizeBits 0 < 160 := commonPrefix_lt_of_ne h
  unfold bucketDistance commonPrefix
  rw [bucketDistanceLoop_eq _ _ _ _ _ (by decide)]
  unfold sha1SizeBits at hlt ⊢
  omega

/-- A smaller bucket distance is a longer prefix. -/
theorem bucketDistance_lt_iff {h a b : GUID} (ha : a ≠ h) (hb : b ≠ h) :
    bucketDistance h a < bucketDistance h b ↔ commonPrefix h b < commonPrefix h a := by
  have h1 := commonPrefix_lt_of_ne ha
  have h2 := commonPrefix_lt_of_ne hb
  rw [bucketDistance_eq ha, bucketDistance_eq hb]
  omega

/-! ### The distance of the search -/

/-- `operator<` of two bit sets of the same size. -/
def less (lhs rhs : GUID) : Bool := lhs.toNat < rhs.toNat

/-- At the last position at which `a` and `b` differ, `a` agrees with `h`. -/
def AgreesAtLast (h a b : GUID) : Prop :=
  ∃ i < sha1SizeBits, test a i = test h i ∧ test b i ≠ test h i ∧
    ∀ j < sha1SizeBits, i < j → test a j = test b j

theorem testBit_xorDistance (lhs rhs : GUID) (i : ℕ) :
    (xorDistance lhs rhs).toNat.testBit i = (test lhs i ^^ test rhs i) := by
  unfold xorDistance test
  rw [← BitVec.testBit_toNat, ← BitVec.testBit_toNat, BitVec.toNat_xor, Nat.testBit_xor]

theorem test_of_le {id : GUID} {i : ℕ} (h : sha1SizeBits ≤ i) : test id i = false :=
  BitVec.getLsbD_of_ge id i h

theorem less_of_agreesAtLast {h a b : GUID} (hab : AgreesAtLast h a b) :
    less (xorDistance h a) (xorDistance h b) = true := by
  obtain ⟨i, -, ha, hb, hafter⟩ := hab
  refine decide_eq_true (Nat.lt_of_testBit i ?_ ?_ fun j hj => ?_)
  · rw [testBit_xorDistance, ha, Bool.xor_self]
  · rw [testBit_xorDistance]
    cases h1 : test h i <;> cases h2 : test b i <;> simp_all
  · rw [testBit_xorDistance, testBit_xorDistance]
    by_cases hj' : j < sha1SizeBits
    · rw [hafter j hj' hj]
    · rw [test_of_le (not_lt.mp hj'), test_of_le (not_lt.mp hj'), test_of_le (not_lt.mp hj')]

/-- Different ids differ at a last position. -/
theorem exists_last_ne {a b : GUID} (h : a ≠ b) : ∃ i < sha1SizeBits, test a i ≠ test b i ∧
    ∀ j < sha1SizeBits, i < j → test a j = test b j := by
  have hne : (xorDistance a b).toNat ≠ 0 := by
    intro h0
    refine h (BitVec.eq_of_getLsbD_eq fun i _ => ?_)
    have hbit := testBit_xorDistance a b i
    rw [h0, Nat.zero_testBit] at hbit
    simpa [test] using hbit.symm
  obtain ⟨i, hi, hafter⟩ := Nat.exists_most_significant_bit hne
  rw [testBit_xorDistance] at hi
  have hi' : test a i ≠ test b i := by simpa using hi
  refine ⟨i, ?_, hi', fun j _ hj => ?_⟩
  · by_contra hle
    rw [test_of_le (not_lt.mp hle), test_of_le (not_lt.mp hle)] at hi'
    exact hi' rfl
  · have hj' := hafter j hj
    rw [testBit_xorDistance] at hj'
    simpa using hj'

/-- **The search looks at an id from its back.** -/
theorem less_iff_agreesAtLast (h a b : GUID) :
    less (xorDistance h a) (xorDistance h b) = true ↔ AgreesAtLast h a b := by
  refine ⟨fun hlt => ?_, less_of_agreesAtLast⟩
  by_cases hab : a = b
  · subst hab
    simp [less] at hlt
  · obtain ⟨i, hi, hne, hafter⟩ := exists_last_ne hab
    by_cases ha : test a i = test h i
    · exact ⟨i, hi, ha, fun hb => hne (ha.trans hb.symm), hafter⟩
    · have hb : test b i = test h i := by
        cases h1 : test a i <;> cases h2 : test b i <;> cases h3 : test h i <;> simp_all
      have hgt := less_of_agreesAtLast ⟨i, hi, hb, ha, fun j hj hij => (hafter j hj hij).symm⟩
      unfold less at hlt hgt
      have hlt := of_decide_eq_true hlt
      have hgt := of_decide_eq_true hgt
      omega

/-! ### Whether they agree -/

/-- **The two metrics agree about `a` and `b` if and only if** `a` is not the node with the longer
prefix, or agrees with the hash at the last position at which `a` and `b` differ. -/
theorem metrics_agree_iff (h a b : Vector UInt8 20) (ha : guid a ≠ guid h) (hb : guid b ≠ guid h) :
    (bucketDistance (guid h) (guid a) < bucketDistance (guid h) (guid b) →
      less (xorDistance (guid h) (guid a)) (xorDistance (guid h) (guid b)) = true) ↔
    (commonPrefix (guid h) (guid a) ≤ commonPrefix (guid h) (guid b) ∨
      AgreesAtLast (guid h) (guid a) (guid b)) := by
  rw [bucketDistance_lt_iff ha hb, less_iff_agreesAtLast, ← not_lt]
  exact imp_iff_not_or

/-- Twenty zeros. -/
def zeros : Vector UInt8 20 := .replicate 20 0

/-- The id of zeros, and two nodes whose first bytes are 64 and 192. -/
theorem metrics_agree_first_byte :
    less (xorDistance (guid zeros) (guid (zeros.set 0 64)))
      (xorDistance (guid zeros) (guid (zeros.set 0 192))) = true :=
  (metrics_agree_iff _ _ _ (by decide +kernel) (by decide +kernel)).mpr
    (.inr ⟨0, by decide, by decide +kernel, by decide +kernel, by decide +kernel⟩)
    (by decide +kernel)

/-- The id of zeros, a node that differs from it in the last bit and one that differs in the first:
the first shares 159 bits with it, and is sorted behind the second, which shares none. -/
theorem not_metrics_agree_last_bit :
    guid (zeros.set 19 1) ≠ guid zeros ∧
      guid (zeros.set 0 128) ≠ guid zeros ∧
      ¬ (bucketDistance (guid zeros) (guid (zeros.set 19 1)) <
          bucketDistance (guid zeros) (guid (zeros.set 0 128)) →
        less (xorDistance (guid zeros) (guid (zeros.set 19 1)))
          (xorDistance (guid zeros) (guid (zeros.set 0 128))) = true) := by
  decide +kernel

end CppTorrent.Dht.Metric
