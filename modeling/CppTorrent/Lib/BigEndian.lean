import Mathlib.Tactic

/-! # Big-endian numbers

`bytesBE k n` are the `k` bytes of `n`, most significant byte first; `numberBE` is the number a byte
string denotes. They are inverse to each other below `256 ^ k` (`numberBE_bytesBE`). -/

namespace CppTorrent.Lib.BigEndian

/-- The number a byte string denotes, most significant byte first. -/
def numberBE (bytes : List UInt8) : ℕ := bytes.foldl (fun acc b => 256 * acc + b.toNat) 0

/-- The last `k` bytes of `n`, most significant byte first. -/
def bytesBE : ℕ → ℕ → List UInt8
  | 0, _ => []
  | k + 1, n => bytesBE k (n / 256) ++ [UInt8.ofNat n]

@[simp] theorem length_bytesBE : ∀ k n : ℕ, (bytesBE k n).length = k
  | 0, _ => rfl
  | k + 1, n => by simp [bytesBE, length_bytesBE k]

theorem numberBE_append_singleton (bytes : List UInt8) (b : UInt8) :
    numberBE (bytes ++ [b]) = 256 * numberBE bytes + b.toNat := by
  simp [numberBE, List.foldl_append]

theorem numberBE_lt (bytes : List UInt8) : numberBE bytes < 256 ^ bytes.length := by
  induction bytes using List.reverseRecOn with
  | nil => exact Nat.one_pos
  | append_singleton bytes b ih =>
    have hb := b.toNat_lt
    rw [numberBE_append_singleton, List.length_append, List.length_singleton, pow_succ]
    omega

/-- **The bytes of a number denote it.** -/
theorem numberBE_bytesBE : ∀ {k n : ℕ}, n < 256 ^ k → numberBE (bytesBE k n) = n
  | 0, n, h => by
    have : n = 0 := by simpa using h
    subst this; rfl
  | k + 1, n, h => by
    have hq : n / 256 < 256 ^ k := Nat.div_lt_of_lt_mul (by rwa [pow_succ, mul_comm] at h)
    rw [bytesBE, numberBE_append_singleton, numberBE_bytesBE hq, UInt8.toNat_ofNat']
    omega

/-- **And the number denoted has these bytes.** -/
theorem bytesBE_numberBE (bytes : List UInt8) : bytesBE bytes.length (numberBE bytes) = bytes := by
  induction bytes using List.reverseRecOn with
  | nil => rfl
  | append_singleton bytes b ih =>
    have hb := b.toNat_lt
    have hdiv : (256 * numberBE bytes + b.toNat) / 256 = numberBE bytes := by omega
    have hlast : UInt8.ofNat (256 * numberBE bytes + b.toNat) = b := by
      refine UInt8.toNat_inj.mp ?_
      rw [UInt8.toNat_ofNat']
      omega
    rw [numberBE_append_singleton, List.length_append, List.length_singleton, bytesBE, hdiv, ih, hlast]

/-- The most significant byte comes first. -/
theorem bytesBE_succ : ∀ k n : ℕ, bytesBE (k + 1) n = UInt8.ofNat (n / 256 ^ k) :: bytesBE k n
  | 0, n => by simp [bytesBE]
  | k + 1, n => by
    have ih := bytesBE_succ k (n / 256)
    have hdiv : n / 256 / 256 ^ k = n / 256 ^ (k + 1) := by
      rw [Nat.div_div_eq_div_mul, ← pow_succ']
    rw [bytesBE, ih, List.cons_append, hdiv]
    rfl

end CppTorrent.Lib.BigEndian
