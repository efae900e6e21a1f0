import Mathlib.Tactic

/-! # Node ids and their distances

A `GUID` is a `Bitfield` of 160 bits; bit `i` of the bit vector is `Test(i)`, and the order of the bit
vectors is the order of the `dynamic_bitset`s, the highest position first. `Bitfield(bytes)` puts the
most significant bit of the first byte at position 0, so the common prefix of two ids counts
positions from 0 upwards.

`BucketDistance` counts down from 159 in an unsigned variable while the bits agree; on equal ids it
wraps around once. `159 - BucketDistance`, again unsigned, is the length of the common prefix in
every case (`prefixLength_eq`). -/

namespace CppTorrent.Dht.Guid

/-- `dht_constants::SHA1_SIZE_BITS`. -/
def sha1SizeBits : ℕ := 160

/-- `dht::GUID`. -/
abbrev GUID : Type := BitVec sha1SizeBits

/-- `Bitfield::Test`. -/
def test (id : GUID) (i : ℕ) : Bool := id.getLsbD i

/-- `XORDistance`. -/
def xorDistance (lhs rhs : GUID) : GUID := lhs ^^^ rhs

/-- Decrement of a `size_t`. -/
def predSize (n : ℕ) : ℕ := (n + (2 ^ 64 - 1)) % 2 ^ 64

/-- The loop of `BucketDistance` from position `i`, with `k` positions to go. -/
def bucketDistanceLoop (n1 n2 : GUID) : ℕ → ℕ → ℕ → ℕ
  | 0, _, bitPos => bitPos
  | k + 1, i, bitPos =>
    if (test n1 i ^^ test n2 i) = true then bitPos
    else bucketDistanceLoop n1 n2 k (i + 1) (predSize bitPos)

/-- `BucketDistance`. -/
def bucketDistance (n1 n2 : GUID) : ℕ :=
  bucketDistanceLoop n1 n2 sha1SizeBits 0 (sha1SizeBits - 1)

/-- `SHA1_SIZE_BITS - 1 - BucketDistance(n1, n2)`, in `size_t`. -/
def prefixLength (n1 n2 : GUID) : ℕ :=
  (sha1SizeBits - 1 + (2 ^ 64 - bucketDistance n1 n2)) % 2 ^ 64

/-- The number of positions from `i` upwards, up to `k` of them, at which the ids agree. -/
def agree (n1 n2 : GUID) : ℕ → ℕ → ℕ
  | 0, _ => 0
  | k + 1, i => if test n1 i = test n2 i then agree n1 n2 k (i + 1) + 1 else 0

/-- The length of the common bit prefix of two ids, 160 if they are equal. -/
def commonPrefix (n1 n2 : GUID) : ℕ := agree n1 n2 sha1SizeBits 0

theorem agree_le (n1 n2 : GUID) : ∀ k i : ℕ, agree n1 n2 k i ≤ k
  | 0, _ => le_rfl
  | k + 1, i => by
    have := agree_le n1 n2 k (i + 1)
    rw [agree]
    split_ifs <;> omega

theorem agree_comm (n1 n2 : GUID) : ∀ k i : ℕ, agree n1 n2 k i = agree n2 n1 k i
  | 0, _ => rfl
  | k + 1, i => by
    rw [agree, agree, agree_comm n1 n2 k]
    simp only [eq_comm (a := test n1 i)]

theorem commonPrefix_comm (n1 n2 : GUID) : commonPrefix n1 n2 = commonPrefix n2 n1 :=
  agree_comm n1 n2 _ _

/-- The loop subtracts the positions that agree. -/
theorem bucketDistanceLoop_eq (n1 n2 : GUID) : ∀ k i bitPos : ℕ, bitPos < 2 ^ 64 →
    bucketDistanceLoop n1 n2 k i bitPos = (bitPos + agree n1 n2 k i * (2 ^ 64 - 1)) % 2 ^ 64
  | 0, _, bitPos, h => by
    rw [bucketDistanceLoop, agree, Nat.zero_mul, Nat.add_zero, Nat.mod_eq_of_lt h]
  | k + 1, i, bitPos, h => by
    rw [bucketDistanceLoop, agree]
    by_cases ht : test n1 i = test n2 i
    · have hp : predSize bitPos < 2 ^ 64 := Nat.mod_lt _ (by norm_num)
      rw [if_neg (by simp [ht]), if_pos ht, bucketDistanceLoop_eq n1 n2 k _ _ hp]
      unfold predSize
      omega
    · rw [if_pos (by simpa using ht), if_neg ht, Nat.zero_mul, Nat.add_zero, Nat.mod_eq_of_lt h]

/-- **The unsigned arithmetic gives the common prefix**, also for equal ids. -/
theorem prefixLength_eq (n1 n2 : GUID) : prefixLength n1 n2 = commonPrefix n1 n2 := by
  have hle : agree n1 n2 sha1SizeBits 0 ≤ 160 := agree_le n1 n2 _ _
  unfold prefixLength bucketDistance commonPrefix
  rw [bucketDistanceLoop_eq _ _ _ _ _ (by decide)]
  unfold sha1SizeBits at hle ⊢
  omega

end CppTorrent.Dht.Guid
