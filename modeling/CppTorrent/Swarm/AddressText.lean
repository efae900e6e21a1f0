import CppTorrent.Swarm.Subscribers
import CppTorrent.Tracker.IpAddress

/-! # Addresses as text and back

`IpToStr` takes the bytes of an address from the lowest up until nothing is left, so it writes no zero
octets in front, and nothing for the address 0. `IpToInt` reads however many numbers there are. So it
reads back every address, and `IpToStr` writes a dotted quad exactly where the first octet is not zero
(`ipText_roundTrip`). -/

namespace CppTorrent.Swarm.AddressText

open CppTorrent.Lib.Decimal CppTorrent.Lib.Stream CppTorrent.Lib.Stream.IStream
open CppTorrent.Swarm.Subscribers CppTorrent.Tracker.IpAddress

/-! ### The loops of `IpToStr` -/

/-- The first loop: the bytes of the address from the lowest up. -/
def pushBytes (ip : ℕ) (ipAddress : List ℕ) : List ℕ :=
  if ip = 0 then ipAddress else pushBytes (ip >>> 8) (ipAddress ++ [ip &&& 255])
termination_by ip
decreasing_by
  rw [Nat.shiftRight_eq_div_pow]
  omega

/-- The second loop: a dot in front of every byte but the first. -/
def writeBytes : List ℕ → Bool → List UInt8 → List UInt8
  | [], _, ipAddressStr => ipAddressStr
  | el :: ipAddress, isFirst, ipAddressStr =>
    let ipAddressStr := if isFirst then ipAddressStr else ipAddressStr ++ [46]
    writeBytes ipAddress false (ipAddressStr ++ decimal el)

theorem pushBytes_eq (ip : ℕ) : ∀ ipAddress : List ℕ,
    pushBytes ip ipAddress = ipAddress ++ Nat.digits 256 ip := by
  induction ip using Nat.strong_induction_on with
  | h ip ih =>
    intro ipAddress
    rw [pushBytes]
    split_ifs with h0
    · rw [h0, Nat.digits_zero, List.append_nil]
    · have hlow : ip &&& 255 = ip % 256 := Nat.and_two_pow_sub_one_eq_mod ip 8
      have hhigh : ip >>> 8 = ip / 256 := Nat.shiftRight_eq_div_pow ip 8
      rw [hlow, hhigh, ih (ip / 256) (by omega), Nat.digits_def' (by decide) (Nat.pos_of_ne_zero h0),
        List.append_assoc, List.singleton_append]

theorem writeBytes_false : ∀ (bytes : List ℕ) (str : List UInt8),
    writeBytes bytes false str = str ++ dotted bytes
  | [], str => (List.append_nil str).symm
  | b :: bytes, str => by
    rw [writeBytes, writeBytes_false bytes]
    simp [dotted]

/-- **`ipToStr` is what the two loops of `IpToStr` compute.** -/
theorem ipToStr_eq_loops (ip : ℕ) :
    ipToStr ip = writeBytes (pushBytes ip []).reverse true [] := by
  rw [pushBytes_eq, List.nil_append, ipToStr]
  rcases (Nat.digits 256 ip).reverse with _ | ⟨b, bytes⟩
  · rfl
  · rw [writeBytes, writeBytes_false]
    rfl

/-! ### The name of a peer -/

/-- The part of `network::PeerClient` that `GetStrIP` uses. -/
structure Named where
  ip : ℕ
  cashIp : List UInt8

/-- `PeerClient::GetStrIP`. -/
def getStrIP (c : Named) : List UInt8 × Named :=
  if c.cashIp ≠ [] then (c.cashIp, c)
  else (ipToStr c.ip, { c with cashIp := ipToStr c.ip })

/-- The client after some calls of `GetStrIP`. -/
def afterCalls (ip : ℕ) : ℕ → Named
  | 0 => ⟨ip, []⟩
  | calls + 1 => (getStrIP (afterCalls ip calls)).2

/-- The host that `Process` and `try_again_connect` pass to `Connect`, after some calls of `GetStrIP`. -/
def hostAfter (ip calls : ℕ) : List UInt8 := (getStrIP (afterCalls ip calls)).1

theorem afterCalls_spec (ip : ℕ) : ∀ calls : ℕ, (afterCalls ip calls).ip = ip ∧
    ((afterCalls ip calls).cashIp = [] ∨ (afterCalls ip calls).cashIp = ipToStr ip)
  | 0 => ⟨rfl, Or.inl rfl⟩
  | calls + 1 => by
    obtain ⟨hip, hcash⟩ := afterCalls_spec ip calls
    rw [afterCalls, getStrIP]
    split_ifs with hempty
    · exact ⟨hip, hcash⟩
    · exact ⟨hip, Or.inr (congrArg ipToStr hip)⟩

/-- **The name of a peer does not depend on earlier calls.** -/
theorem hostAfter_eq (ip calls : ℕ) : hostAfter ip calls = ipToStr ip := by
  obtain ⟨hip, hcash⟩ := afterCalls_spec ip calls
  rw [hostAfter, getStrIP]
  split_ifs with hempty
  · exact hcash.resolve_left hempty
  · exact congrArg ipToStr hip

/-! ### Reading and writing -/

/-- The four octets of a dotted quad. -/
def dottedQuad (a b c d : UInt8) : List UInt8 :=
  decimal a.toNat ++ 46 :: (decimal b.toNat ++ 46 :: (decimal c.toNat ++ 46 :: decimal d.toNat))

/-- An octet of an address, from the lowest up. -/
def octet (i : ℕ) (ip : UInt32) : UInt8 := UInt8.ofNat (ip.toNat / 256 ^ i)

theorem joinDots_decimal : ∀ bytes : List ℕ, joinDots (bytes.map decimal) = joinBytes bytes
  | [] => rfl
  | [b] => (List.append_nil (decimal b)).symm
  | b :: b' :: bytes => by
    have ih := joinDots_decimal (b' :: bytes)
    have hdot : joinDots ((b :: b' :: bytes).map decimal) =
        decimal b ++ 46 :: joinDots ((b' :: bytes).map decimal) := rfl
    rw [hdot, ih]
    simp [joinBytes, dotted]

/-- The numerals of bytes are octets. -/
theorem exists_octets : ∀ {bytes : List ℕ}, (∀ b ∈ bytes, b < 256) → ∃ octets : List Octet,
    octets.map Octet.digits = bytes.map decimal ∧ (octets.map fun o => value o.digits) = bytes
  | [], _ => ⟨[], rfl, rfl⟩
  | b :: bytes, h => by
    obtain ⟨octets, hdigits, hvalues⟩ := exists_octets fun x hx => h x (List.mem_cons_of_mem b hx)
    have hlt : value (decimal b) < 256 := by
      rw [value_decimal]
      exact h b List.mem_cons_self
    refine ⟨⟨decimal b, decimal_ne_nil b, fun _ => isDigit_of_mem_decimal, hlt⟩ :: octets, ?_, ?_⟩
    · rw [List.map_cons, List.map_cons, hdigits]
    · rw [List.map_cons, hvalues, value_decimal]

theorem ipToInt_nil : ipToInt [] = 0 := by
  have hread : (ofBytes []).extract toInt 0 0 = ((0 : ℤ), ⟨[], true, true⟩) := rfl
  exact ipLoop_of_none hread rfl

/-- `IpToInt` reads what `IpToStr` writes for at most four bytes. -/
theorem toNat_ipToInt_joinBytes {bytes : List ℕ} (hlen : bytes.length ≤ 4)
    (hlt : ∀ b ∈ bytes, b < 256) : (ipToInt (joinBytes bytes)).toNat = ipOf bytes := by
  obtain ⟨octets, hdigits, hvalues⟩ := exists_octets hlt
  have hcount : octets.length = bytes.length := by rw [← hvalues, List.length_map]
  rcases eq_or_ne octets [] with rfl | hne
  · obtain rfl : bytes = [] := hvalues.symm
    rw [joinBytes, ipToInt_nil]
    rfl
  · rw [← joinDots_decimal, ← hdigits, toNat_ipToInt hne (hcount.trans_le hlen), hvalues]

theorem ipOf_eq (bytes : List ℕ) : ipOf bytes = Nat.ofDigits 256 bytes.reverse := by
  rw [Nat.ofDigits_eq_foldr, List.foldr_reverse]
  exact congrArg (fun f => bytes.foldl f 0) (funext₂ fun acc b => Nat.add_comm _ _)

/-- `IpToStr` writes bytes of which the first is not zero. -/
theorem ipToStr_ipOf {a : ℕ} {bytes : List ℕ} (ha : a ≠ 0) (hlt : ∀ b ∈ a :: bytes, b < 256) :
    ipToStr (ipOf (a :: bytes)) = joinBytes (a :: bytes) := by
  have hdigits : Nat.digits 256 (ipOf (a :: bytes)) = (a :: bytes).reverse := by
    rw [ipOf_eq]
    refine Nat.digits_ofDigits 256 (by decide) _ (fun b hb => hlt b (List.mem_reverse.mp hb)) ?_
    intro hne
    rw [List.getLast_reverse]
    exact ha
  rw [ipToStr, hdigits, List.reverse_reverse]

/-- An address of at most 32 bits is read back. -/
theorem toNat_ipToInt_ipToStr {ip : ℕ} (h : ip < 2 ^ 32) : (ipToInt (ipToStr ip)).toNat = ip := by
  have hlen : (Nat.digits 256 ip).reverse.length ≤ 4 := by
    rw [List.length_reverse]
    exact (Nat.digits_length_le_iff (by decide) ip).mpr h
  rw [ipToStr, toNat_ipToInt_joinBytes hlen fun b hb =>
    Nat.digits_lt_base (by decide) (List.mem_reverse.mp hb), ipOf_eq, List.reverse_reverse,
    Nat.ofDigits_digits]

theorem dottedQuad_eq (a b c d : UInt8) :
    dottedQuad a b c d = joinBytes [a.toNat, b.toNat, c.toNat, d.toNat] := by
  simp [dottedQuad, joinBytes, dotted]

/-- The bytes of a quad. -/
theorem quad_lt (a b c d : UInt8) : ∀ x ∈ [a.toNat, b.toNat, c.toNat, d.toNat], x < 256 := by
  intro x hx
  obtain ⟨y, -, rfl⟩ : ∃ y ∈ [a, b, c, d], UInt8.toNat y = x := List.mem_map.mp hx
  exact y.toNat_lt

/-- An address is made of its octets. -/
theorem ipOf_octets (ip : UInt32) : ipOf [(octet 3 ip).toNat, (octet 2 ip).toNat, (octet 1 ip).toNat,
    (octet 0 ip).toNat] = ip.toNat := by
  have hlt : ip.toNat < 2 ^ 32 := ip.toNat_lt
  simp only [ipOf, octet, List.foldl_cons, List.foldl_nil, UInt8.toNat_ofNat']
  omega

/-- **Addresses as text**: every address is read back, also one with octets that are zero. One whose
first octet is not zero is written as a dotted quad, which is the host that `Connect` is given, and
every such quad is read and written again. -/
theorem ipText_roundTrip (ip : UInt32) (calls : ℕ) (a b c d : UInt8) :
    (ipToInt (ipToStr ip.toNat)).toNat = ip.toNat ∧
      (octet 3 ip ≠ 0 →
        ipToStr ip.toNat = dottedQuad (octet 3 ip) (octet 2 ip) (octet 1 ip) (octet 0 ip) ∧
        hostAfter ip.toNat calls =
          dottedQuad (octet 3 ip) (octet 2 ip) (octet 1 ip) (octet 0 ip)) ∧
      (a ≠ 0 → ipToStr (ipToInt (dottedQuad a b c d)).toNat = dottedQuad a b c d) := by
  have hquad : ∀ a b c d : UInt8, a ≠ 0 →
      ipToStr (ipOf [a.toNat, b.toNat, c.toNat, d.toNat]) = dottedQuad a b c d := by
    intro a b c d ha
    have hne : a.toNat ≠ 0 := fun h0 => ha (UInt8.toNat_inj.mp h0)
    rw [ipToStr_ipOf hne (quad_lt a b c d), dottedQuad_eq]
  refine ⟨toNat_ipToInt_ipToStr ip.toNat_lt, fun hfirst => ?_, fun ha => ?_⟩
  · have htext := hquad (octet 3 ip) (octet 2 ip) (octet 1 ip) (octet 0 ip) hfirst
    rw [ipOf_octets] at htext
    exact ⟨htext, (hostAfter_eq ip.toNat calls).trans htext⟩
  · have hread := toNat_ipToInt_joinBytes (le_refl 4) (quad_lt a b c d)
    rw [← dottedQuad_eq] at hread
    rw [hread]
    exact hquad a b c d ha

end CppTorrent.Swarm.AddressText
