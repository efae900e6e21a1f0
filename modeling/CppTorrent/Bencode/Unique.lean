import CppTorrent.Bencode.Serialize

/-! # The serialisation is uniquely decodable

A string is written with its length, so what looks like a delimiter inside it is never taken for
one. Lists and maps have no length, but an element never begins with the byte that ends the list.
Hence a serialised value in front of anything determines both the value and where it ends
(`makeSerialize_append_iff`): this is a property of the writer alone, empty strings included. -/

namespace CppTorrent.Bencode.Unique

open CppTorrent.Lib.Decimal CppTorrent.Bencode.Serialize

/-! ### Strings and numbers -/

theorem makeSerializeStr_append_inj {k1 k2 s1 s2 : List UInt8}
    (h : makeSerializeStr k1 ++ s1 = makeSerializeStr k2 ++ s2) : k1 = k2 ∧ s1 = s2 := by
  unfold makeSerializeStr at h
  rw [List.append_assoc, List.append_assoc] at h
  obtain ⟨hlen, hrest⟩ := decimal_append_inj (stops_cons (by decide)) (stops_cons (by decide)) h
  exact List.append_inj (List.cons.inj hrest).2 hlen

/-- A numeral does not begin with a sign. -/
theorem decimal_append_ne (n : ℕ) (r t : List UInt8) : decimal n ++ r ≠ 45 :: t := by
  intro h
  obtain ⟨d, ds, hds, hd⟩ := decimal_eq_cons n
  rw [hds, List.cons_append] at h
  rw [(List.cons.inj h).1] at hd
  exact absurd hd (by decide)

theorem decimalInt_append_inj {i j : ℤ} {r1 r2 : List UInt8} (h1 : Stops r1) (h2 : Stops r2)
    (h : decimalInt i ++ r1 = decimalInt j ++ r2) : i = j ∧ r1 = r2 := by
  cases i with
  | ofNat m =>
    cases j with
    | ofNat n =>
      obtain ⟨hmn, hr⟩ := decimal_append_inj h1 h2 h
      exact ⟨congrArg Int.ofNat hmn, hr⟩
    | negSucc n => exact absurd h (decimal_append_ne m r1 _)
  | negSucc m =>
    cases j with
    | ofNat n => exact absurd h.symm (decimal_append_ne n r2 _)
    | negSucc n =>
      obtain ⟨hmn, hr⟩ := decimal_append_inj h1 h2 (List.cons.inj h).2
      exact ⟨congrArg Int.negSucc (Nat.succ.inj hmn), hr⟩

theorem makeSerializeNumber_append_inj {i j : ℤ} {s1 s2 : List UInt8}
    (h : makeSerializeNumber i ++ s1 = makeSerializeNumber j ++ s2) : i = j ∧ s1 = s2 := by
  rw [makeSerializeNumber, makeSerializeNumber, List.cons_append, List.cons_append,
    List.append_assoc, List.append_assoc] at h
  obtain ⟨hij, hr⟩ := decimalInt_append_inj (stops_cons (by decide)) (stops_cons (by decide))
    (List.cons.inj h).2
  exact ⟨hij, (List.cons.inj hr).2⟩

/-! ### The first byte -/

/-- The first byte of a string is a digit. -/
theorem makeSerializeStr_cons (k s : List UInt8) :
    ∃ d t, makeSerializeStr k ++ s = d :: t ∧ isDigit d = true := by
  obtain ⟨d, ds, hds, hd⟩ := decimal_eq_cons k.length
  exact ⟨d, ds ++ 58 :: k ++ s, by rw [makeSerializeStr, hds]; rfl, hd⟩

/-- A string begins with no letter. -/
theorem makeSerializeStr_append_ne {b : UInt8} (hb : isDigit b = false) (k s t : List UInt8) :
    makeSerializeStr k ++ s ≠ b :: t := by
  intro h
  obtain ⟨d, t', ht, hd⟩ := makeSerializeStr_cons k s
  rw [ht] at h
  rw [(List.cons.inj h).1, hb] at hd
  cases hd

/-- A value does not begin with the byte that ends a list or a map. -/
theorem makeSerialize_append_ne (v : Node) (s t : List UInt8) : makeSerialize v ++ s ≠ 101 :: t := by
  cases v with
  | number n => exact fun h => absurd (List.cons.inj h).1 (by decide)
  | str k => exact makeSerializeStr_append_ne (by decide) k s t
  | list arr => exact fun h => absurd (List.cons.inj h).1 (by decide)
  | dict d => exact fun h => absurd (List.cons.inj h).1 (by decide)

/-! ### Values -/

mutual

theorem makeSerialize_append_inj : ∀ (v1 v2 : Node) (s1 s2 : List UInt8),
    makeSerialize v1 ++ s1 = makeSerialize v2 ++ s2 → v1 = v2 ∧ s1 = s2
  | .number i, v2, s1, s2, h => by
    cases v2 with
    | number j =>
      obtain ⟨hij, hs⟩ := makeSerializeNumber_append_inj h
      exact ⟨congrArg Node.number hij, hs⟩
    | str k => exact absurd h.symm (makeSerializeStr_append_ne (by decide) k s2 _)
    | list arr => exact absurd (List.cons.inj h).1 (by decide)
    | dict d => exact absurd (List.cons.inj h).1 (by decide)
  | .str k, v2, s1, s2, h => by
    cases v2 with
    | number j => exact absurd h (makeSerializeStr_append_ne (by decide) k s1 _)
    | str k2 =>
      obtain ⟨hk, hs⟩ := makeSerializeStr_append_inj h
      exact ⟨congrArg Node.str hk, hs⟩
    | list arr => exact absurd h (makeSerializeStr_append_ne (by decide) k s1 _)
    | dict d => exact absurd h (makeSerializeStr_append_ne (by decide) k s1 _)
  | .list arr, v2, s1, s2, h => by
    cases v2 with
    | number j => exact absurd (List.cons.inj h).1 (by decide)
    | str k => exact absurd h.symm (makeSerializeStr_append_ne (by decide) k s2 _)
    | list arr2 =>
      rw [makeSerialize, makeSerialize, List.cons_append, List.cons_append, List.append_assoc,
        List.append_assoc] at h
      obtain ⟨harr, hs⟩ := makeSerializeElems_append_inj arr arr2 s1 s2 (List.cons.inj h).2
      exact ⟨congrArg Node.list harr, hs⟩
    | dict d => exact absurd (List.cons.inj h).1 (by decide)
  | .dict d, v2, s1, s2, h => by
    cases v2 with
    | number j => exact absurd (List.cons.inj h).1 (by decide)
    | str k => exact absurd h.symm (makeSerializeStr_append_ne (by decide) k s2 _)
    | list arr => exact absurd (List.cons.inj h).1 (by decide)
    | dict d2 =>
      rw [makeSerialize, makeSerialize, List.cons_append, List.cons_append, List.append_assoc,
        List.append_assoc] at h
      obtain ⟨hd, hs⟩ := makeSerializeEntries_append_inj d d2 s1 s2 (List.cons.inj h).2
      exact ⟨congrArg Node.dict hd, hs⟩

theorem makeSerializeElems_append_inj : ∀ (a1 a2 : List Node) (s1 s2 : List UInt8),
    makeSerializeElems a1 ++ 101 :: s1 = makeSerializeElems a2 ++ 101 :: s2 → a1 = a2 ∧ s1 = s2
  | [], a2, s1, s2, h => by
    cases a2 with
    | nil => exact ⟨rfl, (List.cons.inj h).2⟩
    | cons v2 a2 =>
      rw [makeSerializeElems, makeSerializeElems, List.append_assoc] at h
      exact absurd h.symm (makeSerialize_append_ne v2 _ _)
  | v1 :: a1, a2, s1, s2, h => by
    cases a2 with
    | nil =>
      rw [makeSerializeElems, makeSerializeElems, List.append_assoc] at h
      exact absurd h (makeSerialize_append_ne v1 _ _)
    | cons v2 a2 =>
      rw [makeSerializeElems, makeSerializeElems, List.append_assoc, List.append_assoc] at h
      obtain ⟨rfl, h'⟩ := makeSerialize_append_inj v1 v2 _ _ h
      obtain ⟨rfl, hs⟩ := makeSerializeElems_append_inj a1 a2 s1 s2 h'
      exact ⟨rfl, hs⟩

theorem makeSerializeEntries_append_inj : ∀ (d1 d2 : List (List UInt8 × Node)) (s1 s2 : List UInt8),
    makeSerializeEntries d1 ++ 101 :: s1 = makeSerializeEntries d2 ++ 101 :: s2 → d1 = d2 ∧ s1 = s2
  | [], d2, s1, s2, h => by
    cases d2 with
    | nil => exact ⟨rfl, (List.cons.inj h).2⟩
    | cons e2 d2 =>
      obtain ⟨k2, v2⟩ := e2
      rw [makeSerializeEntries, makeSerializeEntries, List.append_assoc] at h
      exact absurd h.symm (makeSerializeStr_append_ne (by decide) k2 _ _)
  | (k1, v1) :: d1, d2, s1, s2, h => by
    cases d2 with
    | nil =>
      rw [makeSerializeEntries, makeSerializeEntries, List.append_assoc] at h
      exact absurd h (makeSerializeStr_append_ne (by decide) k1 _ _)
    | cons e2 d2 =>
      obtain ⟨k2, v2⟩ := e2
      rw [makeSerializeEntries, makeSerializeEntries, List.append_assoc, List.append_assoc,
        List.append_assoc, List.append_assoc] at h
      obtain ⟨rfl, h'⟩ := makeSerializeStr_append_inj h
      obtain ⟨rfl, h''⟩ := makeSerialize_append_inj v1 v2 _ _ h'
      obtain ⟨rfl, hs⟩ := makeSerializeEntries_append_inj d1 d2 s1 s2 h''
      exact ⟨rfl, hs⟩

end

/-- **A serialised value determines the value and where it ends**, whatever follows. -/
theorem makeSerialize_append_iff (v1 v2 : Node) (s1 s2 : List UInt8) :
    makeSerialize v1 ++ s1 = makeSerialize v2 ++ s2 ↔ v1 = v2 ∧ s1 = s2 := by
  refine ⟨makeSerialize_append_inj v1 v2 s1 s2, ?_⟩
  rintro ⟨rfl, rfl⟩
  rfl

end CppTorrent.Bencode.Unique
