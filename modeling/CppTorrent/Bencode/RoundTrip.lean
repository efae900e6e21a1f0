import CppTorrent.Bencode.Grammar

/-! # Reading back what was written

`LoadStr` ends with a `get` that makes up for the last step `copy_n` does not take. After a string
of length zero there is no such step to make up for, so the `get` takes the byte that follows the
string. Hence the round trip is exact for values without empty strings
(`Grammar.loadNode_makeSerialize`), and for no others: on a stream that has not failed the reader has taken
at least `weight v` bytes for a value `v` (`weight_le`), one more than the writer wrote for each
empty string. -/

namespace CppTorrent.Bencode.RoundTrip

open CppTorrent.Lib.Decimal CppTorrent.Lib.Stream CppTorrent.Lib.Stream.IStream
open CppTorrent.Lib.OrderedMap
open CppTorrent.Bencode.Serialize CppTorrent.Bencode.Deserialize CppTorrent.Bencode.Grammar

/-! ### What the reader takes -/

theorem length_decimal_toUnsigned {neg : Bool} {ds : List UInt8} {n : ℕ} (hne : ds ≠ [])
    (hds : ∀ d ∈ ds, isDigit d = true) (hc : toUnsigned neg (value ds) = (n, true))
    (hn : n ≤ maxSize) : (decimal n).length ≤ ds.length := by
  have hv := length_decimal_value hds hne
  have hle : n ≤ value ds := by
    unfold toUnsigned at hc
    unfold maxSize at hn
    split_ifs at hc with h1 h2 <;> simp only [Prod.mk.injEq] at hc <;> omega
  exact (length_decimal_mono hle).trans hv

theorem length_decimalInt_toSigned {neg : Bool} {ds : List UInt8} {i : ℤ} (hne : ds ≠ [])
    (hds : ∀ d ∈ ds, isDigit d = true) (hc : toSigned neg (value ds) = (i, true)) :
    (decimalInt i).length ≤ ds.length + neg.toNat := by
  have hv := length_decimal_value hds hne
  unfold toSigned at hc
  cases neg with
  | false =>
    simp only [Bool.false_eq_true, if_false] at hc
    split_ifs at hc
    · simp only [Prod.mk.injEq, and_true] at hc
      subst hc
      exact hv
    · simp at hc
  | true =>
    simp only [if_true] at hc
    split_ifs at hc
    · simp only [Prod.mk.injEq, and_true] at hc
      subst hc
      cases hm : value ds with
      | zero => rw [hm] at hv; exact Nat.le_succ_of_le hv
      | succ m => rw [hm] at hv; exact Nat.succ_le_succ hv
    · simp at hc

theorem strWeight_le {s s' : IStream} {str : List UInt8} (h : loadStr ample s = .done str s')
    (hf : s'.failbit = false) :
    s.failbit = false ∧ strWeight str + s'.buf.length ≤ s.buf.length := by
  obtain ⟨s1, hmem, hcopy, rfl⟩ := loadStr_eq_done h
  set x := s.extractUnsigned 0 with hx
  obtain ⟨hg3, hl3⟩ := get_of_failbit hf
  have hn := length_copyN hcopy
  have hlc := length_buf_copyN hcopy
  obtain ⟨-, -, hs1⟩ := copyN_eq_some.mp hcopy
  have hf1 : x.2.get.failbit = false := by
    rw [← hs1] at hg3
    exact (good_iff.mp hg3).2
  obtain ⟨hg1, hl1⟩ := get_of_failbit hf1
  obtain ⟨hfs, neg, ds, hne, hds, hc, hlen⟩ := extract_of_failbit (hx ▸ (good_iff.mp hg1).2)
  have hdec := length_decimal_toUnsigned hne hds hc (reserves_le hmem)
  refine ⟨hfs, ?_⟩
  change ds.length + neg.toNat + x.2.buf.length ≤ s.buf.length at hlen
  change (decimal x.1).length ≤ ds.length at hdec
  unfold strWeight makeSerializeStr emptyStr
  rw [List.length_append, List.length_cons, hn]
  split_ifs with he
  · rw [he, List.length_nil] at hn; omega
  · have : x.1 ≠ 0 := by rw [← hn]; simpa using he
    omega

theorem number_weight_le {s s' : IStream} {v : Node} (h : loadNumber s = .done v s')
    (hf : s'.failbit = false) : s.failbit = false ∧ weight v + s'.buf.length ≤ s.buf.length := by
  obtain ⟨number, hread, rfl, rfl⟩ := loadNumber_eq_done h
  set x := s.get.extractSigned with hx
  obtain ⟨hg3, hl3⟩ := get_of_failbit hf
  obtain ⟨hf1, neg, ds, hne, hds, hc, hlen⟩ := extract_of_failbit (hx ▸ (good_iff.mp hg3).2)
  obtain ⟨hg, hl⟩ := get_of_failbit hf1
  have hconv : toSigned neg (value ds) = (number, true) := by
    obtain ⟨hvalue, hfits⟩ := Prod.mk.inj hc
    exact Prod.ext (Option.some.inj (hvalue.trans hread)) hfits
  have hdec := length_decimalInt_toSigned hne hds hconv
  refine ⟨(good_iff.mp hg).2, ?_⟩
  change ds.length + neg.toNat + x.2.buf.length ≤ s.get.buf.length at hlen
  simp only [weight, makeSerialize, makeSerializeNumber, emptyStrings, List.length_cons,
    List.length_append, List.length_nil]
  omega

/-- **The reader takes at least the weight of what it returns**, if the stream has not failed: the
bytes of its serialisation, and one more for each empty string. `LoadDict` is called after a `peek`,
so its stream is not good at the end of the text. -/
theorem weight_le : ∀ n : ℕ,
    (∀ s v s', loadNode ample n s = .done v s' → s'.failbit = false →
      s.failbit = false ∧ weight v + s'.buf.length ≤ s.buf.length) ∧
    (∀ s v s', (s.good = true → s.buf ≠ []) → loadDict ample n s = .done v s' → s'.failbit = false →
      s.failbit = false ∧ weight v + s'.buf.length ≤ s.buf.length) ∧
    (∀ d s v s', loadDictLoop ample n d s = .done v s' → s'.failbit = false →
      s.failbit = false ∧ weight v + s'.buf.length ≤ s.buf.length + (d.map entryWeight).sum + 1) ∧
    (∀ s v s', loadArray ample n s = .done v s' → s'.failbit = false →
      s.failbit = false ∧ weight v + s'.buf.length ≤ s.buf.length) ∧
    (∀ a s v s', loadArrayLoop ample n a s = .done v s' → s'.failbit = false →
      s.failbit = false ∧ weight v + s'.buf.length ≤ s.buf.length + (a.map weight).sum + 1)
  | 0 => by simp [loadNode, loadDict, loadDictLoop, loadArray, loadArrayLoop]
  | n + 1 => by
    obtain ⟨hN, hD, hDL, hA, hAL⟩ := weight_le n
    refine ⟨fun s v s' h hf => ?_, fun s v s' hs h hf => ?_, fun d s v s' h hf => ?_,
      fun s v s' h hf => ?_, fun a s v s' h hf => ?_⟩
    · rw [loadNode] at h
      have key : s.peek.2.failbit = false ∧ weight v + s'.buf.length ≤ s.peek.2.buf.length := by
        simp only at h
        split_ifs at h
        · exact number_weight_le h hf
        · exact hA _ _ _ h hf
        · exact hD _ _ _ buf_ne_nil_of_good_peek h hf
        · obtain ⟨str, hs, rfl⟩ := Outcome.map_eq_done h
          exact strWeight_le hs hf
      obtain ⟨h1, h2⟩ := peek_of_failbit key.1
      exact ⟨h1, h2 ▸ key.2⟩
    · rw [loadDict] at h
      simp only at h
      split_ifs at h with hc
      · simp only [Outcome.done.injEq] at h
        obtain ⟨-, rfl⟩ := h
        exact absurd hf (by simp [failbit_of_peek_none hs hc])
      · obtain ⟨h1, h2⟩ := hDL _ _ _ _ h hf
        obtain ⟨hg, hl⟩ := get_of_failbit h1
        obtain ⟨h3, h4⟩ := peek_of_failbit (good_iff.mp hg).2
        rw [h4] at hl
        rw [List.map_nil, List.sum_nil] at h2
        exact ⟨h3, by omega⟩
    · rw [loadDictLoop] at h
      have key : s.peek.2.failbit = false ∧
          weight v + s'.buf.length ≤ s.peek.2.buf.length + (d.map entryWeight).sum + 1 := by
        simp only at h
        split_ifs at h
        · simp only [Outcome.done.injEq] at h
          obtain ⟨rfl, rfl⟩ := h
          obtain ⟨hg, hl⟩ := get_of_failbit hf
          refine ⟨(good_iff.mp hg).2, ?_⟩
          rw [weight_dict]; omega
        · obtain ⟨k, s1, hk, h⟩ := Outcome.bind_eq_done h
          obtain ⟨v1, s2, hv1, h⟩ := Outcome.bind_eq_done h
          obtain ⟨hf2, hl2⟩ := hDL _ _ _ _ h hf
          obtain ⟨hf1, hl1⟩ := hN _ _ _ hv1 hf2
          obtain ⟨hf0, hl0⟩ := strWeight_le hk hf1
          have hem := sum_emplace_le entryWeight k v1 d
          have hkw : entryWeight (k, v1) = strWeight k + weight v1 := rfl
          exact ⟨hf0, by omega⟩
      obtain ⟨h1, h2⟩ := peek_of_failbit key.1
      exact ⟨h1, h2 ▸ key.2⟩
    · rw [loadArray] at h
      obtain ⟨h1, h2⟩ := hAL _ _ _ _ h hf
      obtain ⟨hg, hl⟩ := get_of_failbit h1
      rw [List.map_nil, List.sum_nil] at h2
      exact ⟨(good_iff.mp hg).2, by omega⟩
    · rw [loadArrayLoop] at h
      have key : s.peek.2.failbit = false ∧
          weight v + s'.buf.length ≤ s.peek.2.buf.length + (a.map weight).sum + 1 := by
        simp only at h
        split_ifs at h
        · simp only [Outcome.done.injEq] at h
          obtain ⟨rfl, rfl⟩ := h
          obtain ⟨hg, hl⟩ := get_of_failbit hf
          refine ⟨(good_iff.mp hg).2, ?_⟩
          rw [weight_list]; omega
        · obtain ⟨v1, s1, hv1, h⟩ := Outcome.bind_eq_done h
          obtain ⟨hf1, hl1⟩ := hAL _ _ _ _ h hf
          obtain ⟨hf0, hl0⟩ := hN _ _ _ hv1 hf1
          rw [List.map_append, List.sum_append, List.map_singleton, List.sum_singleton] at hl1
          exact ⟨hf0, by omega⟩
      obtain ⟨h1, h2⟩ := peek_of_failbit key.1
      exact ⟨h1, h2 ▸ key.2⟩

/-! ### The round trip -/

/-- **The round trip is exact for the values without empty strings, and only for them.** After a
failed read a stream has no position, so "positioned at `rest`" includes that it has not failed. -/
theorem loadNode_makeSerialize_iff (v : Node) (hv : WF v) (rest : List UInt8) :
    (∃ n, loadNode ample n (ofBytes (makeSerialize v ++ rest)) = .done v (ofBytes rest)) ↔
      emptyStrings v = 0 := by
  constructor
  · rintro ⟨n, hn⟩
    have h := ((weight_le n).1 _ _ _ hn rfl).2
    rw [buf_ofBytes, buf_ofBytes, List.length_append, weight] at h
    omega
  · intro he
    obtain ⟨n, hn⟩ := loadNode_makeSerialize v hv he
    exact ⟨n, hn rest⟩

/-- The round trip of a dictionary holding a list and a negative number. -/
theorem loadNode_makeSerialize_nested :
    ∃ n, loadNode ample n (ofBytes
        (makeSerialize (.dict [([97], .list [.str [0, 255]]), ([98], .number (-7))]) ++ [101])) =
      .done (.dict [([97], .list [.str [0, 255]]), ([98], .number (-7))]) (ofBytes [101]) :=
  (loadNode_makeSerialize_iff _ (by
    simp only [WF, WFEntries, WFElems, Ascending, maxSize]; decide) [101]).mpr (by decide)

/-- The empty string takes the byte that follows it. -/
theorem not_roundTrip_empty :
    WF (.str []) ∧
      ¬ ∃ n, loadNode ample n (ofBytes (makeSerialize (.str []) ++ [120])) =
        .done (.str []) (ofBytes [120]) := by
  refine ⟨by simp [WF], ?_⟩
  rintro ⟨n, hn⟩
  have h1 : loadNode ample 1 (ofBytes (makeSerialize (.str []) ++ [120])) =
      .done (.str []) (ofBytes []) := rfl
  have h2 := loadNode_mono (Nat.le_add_right 1 n) (by rw [h1]; simp)
  rw [loadNode_mono (Nat.le_add_left n 1) (by rw [hn]; simp), hn, h1] at h2
  simp [ofBytes] at h2

end CppTorrent.Bencode.RoundTrip
