import CppTorrent.Dht.Metric
import CppTorrent.Lib.CommonPrefix

/-! # The prefix length that chooses a bucket

`SHA1_SIZE_BITS - 1 - BucketDistance` is the number of bits that two ids have in common at their
front: `prefixLength_eq_commonLength` for the bits as `Test` gives them, and `prefixLength_guid` for the
bytes that the ids are built from. As a common length it is an ultrametric, which is what makes the
buckets a partition by distance. -/

namespace CppTorrent.Dht.Prefix

open CppTorrent.Dht.Guid CppTorrent.Dht.Metric CppTorrent.Lib.CommonPrefix

/-- The bits of an id, in the order of their positions. -/
def bits (id : GUID) : List Bool := (List.range sha1SizeBits).map (test id)

/-- A byte string as a bit string, the most significant bit of each byte first. -/
def bitString (data : List UInt8) : List Bool := data.flatMap bitsOfByte

theorem length_bits (id : GUID) : (bits id).length = sha1SizeBits := by simp [bits]

theorem length_bitString : ∀ data : List UInt8, (bitString data).length = 8 * data.length
  | [] => rfl
  | b :: data => by
    have ih := length_bitString data
    have hb : (bitsOfByte b).length = 8 := rfl
    unfold bitString at ih ⊢
    rw [List.flatMap_cons, List.length_append, ih, hb, List.length_cons]
    omega

/-- The bits of a byte determine it. -/
theorem bitsOfByte_injective {b c : UInt8} (h : bitsOfByte b = bitsOfByte c) : b = c := by
  refine UInt8.toNat_inj.mp (Nat.eq_of_testBit_eq fun i => ?_)
  rcases Nat.lt_or_ge i 8 with hi | hi
  · have hbit := congrArg (fun l => l[7 - i]?) h
    have hi' : 7 - (7 - i) = i := by omega
    simpa [bitsOfByte, show 7 - i < 8 by omega, hi'] using hbit
  · have hpow : 2 ^ 8 ≤ 2 ^ i := Nat.pow_le_pow_right (by decide) hi
    have hb : b.toNat < 2 ^ 8 := b.toNat_lt
    have hc : c.toNat < 2 ^ 8 := c.toNat_lt
    rw [Nat.testBit_lt_two_pow (by omega), Nat.testBit_lt_two_pow (by omega)]

theorem bitString_injective : ∀ {xs ys : List UInt8}, bitString xs = bitString ys → xs = ys
  | [], [], _ => rfl
  | [], y :: ys, h => by
    have hlen := congrArg List.length h
    simp [length_bitString] at hlen
  | x :: xs, [], h => by
    have hlen := congrArg List.length h
    simp [length_bitString] at hlen
  | x :: xs, y :: ys, h => by
    have hsplit : bitsOfByte x = bitsOfByte y ∧ bitString xs = bitString ys :=
      List.append_inj h rfl
    rw [bitsOfByte_injective hsplit.1, bitString_injective hsplit.2]

/-- The loop of `BucketDistance` looks at the bits from a position on. -/
theorem agree_eq_commonLength (n1 n2 : GUID) : ∀ k i : ℕ, agree n1 n2 k i =
    commonLength ((List.range' i k).map (test n1)) ((List.range' i k).map (test n2))
  | 0, _ => rfl
  | k + 1, i => by
    rw [agree, List.range'_succ, List.map_cons, List.map_cons, commonLength,
      agree_eq_commonLength n1 n2 k (i + 1)]

/-- **The prefix length is the common length of the bits**, also for equal ids. -/
theorem prefixLength_eq_commonLength (n1 n2 : GUID) :
    prefixLength n1 n2 = commonLength (bits n1) (bits n2) := by
  rw [prefixLength_eq, commonPrefix, agree_eq_commonLength, ← List.range_eq_range']
  rfl

/-- **`Bitfield` keeps the order of the bits.** -/
theorem bits_guid (data : Vector UInt8 20) : bits (guid data) = bitString data.toList := by
  have hfield : bitfield data.toList = bitString data.toList := bitfield_eq data.toList
  have hlen : (bitString data.toList).length = sha1SizeBits := by
    rw [length_bitString, Vector.length_toList]
    rfl
  refine List.ext_getElem? fun i => ?_
  rcases Nat.lt_or_ge i sha1SizeBits with hi | hi
  · have htest : test (guid data) i = (bitString data.toList).getD i false := by
      unfold test guid
      rw [BitVec.getLsbD_setWidth, BitVec.getLsbD_ofBoolListLE, hfield, decide_eq_true hi,
        Bool.true_and]
    rw [bits, List.getElem?_map, List.getElem?_range hi, Option.map_some, htest,
      List.getD_eq_getElem?_getD, List.getElem?_eq_getElem (hlen.symm ▸ hi)]
    rfl
  · rw [List.getElem?_eq_none (by rw [length_bits]; exact hi),
      List.getElem?_eq_none (by rw [hlen]; exact hi)]

theorem guid_injective {x y : Vector UInt8 20} (h : guid x = guid y) : x = y := by
  have hbits := congrArg bits h
  rw [bits_guid, bits_guid] at hbits
  exact Vector.toList_inj.mp (bitString_injective hbits)

/-- **The prefix length of two ids is that of their bytes** as bit strings: for different byte strings
without wrapping around, for equal ones 160. Over three ids it is an ultrametric. -/
theorem prefixLength_guid (x y : Vector UInt8 20) (a b c : GUID) :
    (x ≠ y → bucketDistance (guid x) (guid y) ≤ sha1SizeBits - 1 ∧
      sha1SizeBits - 1 - bucketDistance (guid x) (guid y) =
        commonLength (bitString x.toList) (bitString y.toList)) ∧
      (x = y → prefixLength (guid x) (guid y) = 160) ∧
      min (prefixLength a b) (prefixLength b c) ≤ prefixLength a c ∧
      (prefixLength a b ≠ prefixLength b c →
        prefixLength a c = min (prefixLength a b) (prefixLength b c)) := by
  refine ⟨fun hne => ?_, ?_, ?_, ?_⟩
  · have hguid : guid y ≠ guid x := fun h => hne (guid_injective h).symm
    have hlt := commonPrefix_lt_of_ne hguid
    have hcommon : commonPrefix (guid x) (guid y) =
        commonLength (bitString x.toList) (bitString y.toList) := by
      rw [← prefixLength_eq, prefixLength_eq_commonLength, bits_guid, bits_guid]
    rw [bucketDistance_eq hguid, ← hcommon]
    omega
  · rintro rfl
    rw [prefixLength_eq_commonLength, commonLength_self, length_bits]
    rfl
  · simp only [prefixLength_eq_commonLength]
    exact min_le_commonLength _ _ _
  · simp only [prefixLength_eq_commonLength]
    exact commonLength_eq_min

/-- The bytes of an id that has only its last bit set. -/
def lastBit : Vector UInt8 20 := Vector.ofFn fun i => if i.val = 19 then 1 else 0

/-- Two ids that differ in their last bit. -/
theorem prefixLength_guid_lastBit :
    sha1SizeBits - 1 - bucketDistance (guid zeros) (guid lastBit) =
      commonLength (bitString zeros.toList) (bitString lastBit.toList) :=
  ((prefixLength_guid zeros lastBit 0 0 0).1 (by decide)).2

end CppTorrent.Dht.Prefix
