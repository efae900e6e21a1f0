import CppTorrent.Lib.Stream

/-! # Addresses as text

`IpToInt` reads numbers from a text and takes one byte between each two of them. Every number is
written into the lowest byte of an `int` that has been shifted. On at most four runs of digits with
dots between them, which stand for a byte each, the result is the number with these bytes
(`toNat_ipToInt`). -/

namespace CppTorrent.Tracker.IpAddress

open CppTorrent.Lib.Decimal CppTorrent.Lib.Stream CppTorrent.Lib.Stream.IStream

/-- The loop of `IpToInt`: what has been read so far, the variable `val` and the stream. -/
def ipLoop (res : BitVec 32) (val : ℤ) (s : IStream) : BitVec 32 :=
  let read := s.extract toInt 0 val
  let res := res <<< 8 ||| BitVec.ofInt 32 read.1
  match _h : read.2.extractChar with
  | none => res
  | some s' => ipLoop res read.1 s'
termination_by s.room
decreasing_by exact (room_extractChar_lt _h).trans_le (room_extract toInt 0 val s)

/-- `IpToInt`. -/
def ipToInt (ipAddress : List UInt8) : BitVec 32 := ipLoop 0 0 (ofBytes ipAddress)

/-- A run of digits that stands for a byte. -/
structure Octet where
  digits : List UInt8
  ne_nil : digits ≠ []
  isDigit : ∀ d ∈ digits, isDigit d = true
  lt : value digits < 256

/-- Texts with dots between them. -/
def joinDots : List (List UInt8) → List UInt8
  | [] => []
  | [ds] => ds
  | ds :: parts => ds ++ 46 :: joinDots parts

/-- The number with some bytes, the most significant one first. -/
def ipOf (bytes : List ℕ) : ℕ := bytes.foldl (fun acc b => 256 * acc + b) 0

/-- An octet is written behind what has been read. -/
def pushOctet (res : BitVec 32) (o : Octet) : BitVec 32 :=
  res <<< 8 ||| BitVec.ofNat 32 (value o.digits)

theorem ipLoop_of_none {res : BitVec 32} {val v : ℤ} {s s' : IStream}
    (hread : s.extract toInt 0 val = (v, s')) (hchar : s'.extractChar = none) :
    ipLoop res val s = res <<< 8 ||| BitVec.ofInt 32 v := by
  rw [ipLoop]
  split
  · rw [hread]
  · next s'' hsome =>
    rw [hread, hchar] at hsome
    cases hsome

theorem ipLoop_of_some {res : BitVec 32} {val v : ℤ} {s s' s'' : IStream}
    (hread : s.extract toInt 0 val = (v, s')) (hchar : s'.extractChar = some s'') :
    ipLoop res val s = ipLoop (res <<< 8 ||| BitVec.ofInt 32 v) v s'' := by
  rw [ipLoop]
  split
  · next hnone =>
    rw [hread, hchar] at hnone
    cases hnone
  · next t hsome =>
    rw [hread, hchar] at hsome
    cases hsome
    rw [hread]

/-- **The numbers between the dots are written one after the other.** -/
theorem ipLoop_joinDots : ∀ (octets : List Octet) (res : BitVec 32) (val : ℤ), octets ≠ [] →
    ipLoop res val (ofBytes (joinDots (octets.map Octet.digits))) =
      octets.foldl pushOctet res
  | [], _, _, hne => absurd rfl hne
  | [o], res, val, _ => by
    have hlt := o.lt
    have hread : (ofBytes o.digits).extract toInt 0 val = (↑(value o.digits), ⟨[], true, false⟩) :=
      extract_digits_end o.ne_nil o.isDigit (toInt_false (by omega))
    exact ipLoop_of_none hread rfl
  | o :: o' :: octets, res, val, _ => by
    have hlt := o.lt
    set rest := joinDots ((o' :: octets).map Octet.digits) with hrest
    have hread : (ofBytes (o.digits ++ 46 :: rest)).extract toInt 0 val =
        (↑(value o.digits), ofBytes (46 :: rest)) :=
      extract_digits o.ne_nil o.isDigit (toInt_false (by omega)) (by decide)
    have ih := ipLoop_joinDots (o' :: octets) (pushOctet res o) (value o.digits)
      (List.cons_ne_nil _ _)
    rw [← hrest] at ih
    exact (ipLoop_of_some hread (extractChar_cons _ (by decide))).trans ih

/-- Writing a byte behind a number that leaves room for it. -/
theorem pushOctet_ofNat {x : ℕ} (hx : x < 2 ^ 24) (o : Octet) :
    pushOctet (BitVec.ofNat 32 x) o = BitVec.ofNat 32 (256 * x + value o.digits) := by
  have hb := o.lt
  have hor := Nat.shiftLeft_add_eq_or_of_lt (show value o.digits < 2 ^ 8 from hb) x
  refine BitVec.eq_of_toNat_eq ?_
  unfold pushOctet
  rw [BitVec.toNat_or, BitVec.toNat_shiftLeft, BitVec.toNat_ofNat, BitVec.toNat_ofNat,
    BitVec.toNat_ofNat, Nat.mod_eq_of_lt (show x < 2 ^ 32 by omega),
    Nat.mod_eq_of_lt (show value o.digits < 2 ^ 32 by omega), Nat.shiftLeft_eq,
    Nat.mod_eq_of_lt (show x * 2 ^ 8 < 2 ^ 32 by omega), ← Nat.shiftLeft_eq, ← hor, Nat.shiftLeft_eq]
  omega

/-- Four bytes at most are not shifted out. -/
theorem foldl_octets : ∀ (octets : List Octet) (x k : ℕ), x < 256 ^ k → k + octets.length ≤ 4 →
    octets.foldl pushOctet (BitVec.ofNat 32 x) =
        BitVec.ofNat 32 ((octets.map fun o => value o.digits).foldl (fun acc b => 256 * acc + b) x) ∧
      (octets.map fun o => value o.digits).foldl (fun acc b => 256 * acc + b) x < 2 ^ 32
  | [], x, k, hx, hk => by
    have hpow : 256 ^ k ≤ 256 ^ 4 := Nat.pow_le_pow_right (by decide) hk
    exact ⟨rfl, hx.trans_le hpow⟩
  | o :: octets, x, k, hx, hk => by
    rw [List.length_cons] at hk
    have hpow : 256 ^ k ≤ 256 ^ 3 := Nat.pow_le_pow_right (by decide) (by omega)
    have hnext : 256 * x + value o.digits < 256 ^ (k + 1) := by
      have hlt := o.lt
      rw [pow_succ]
      omega
    have ih := foldl_octets octets (256 * x + value o.digits) (k + 1) hnext (by omega)
    rw [List.foldl_cons, pushOctet_ofNat (hx.trans_le hpow)]
    exact ih

/-- **`IpToInt` reads the bytes of an address.** -/
theorem toNat_ipToInt {octets : List Octet} (hne : octets ≠ []) (hlen : octets.length ≤ 4) :
    (ipToInt (joinDots (octets.map Octet.digits))).toNat = ipOf (octets.map fun o => value o.digits) := by
  obtain ⟨hfold, hlt⟩ := foldl_octets octets 0 0 (by decide) (by omega)
  unfold ipToInt ipOf
  rw [ipLoop_joinDots octets 0 0 hne]
  change (octets.foldl _ (BitVec.ofNat 32 0)).toNat = _
  rw [hfold, BitVec.toNat_ofNat, Nat.mod_eq_of_lt hlt]

end CppTorrent.Tracker.IpAddress
