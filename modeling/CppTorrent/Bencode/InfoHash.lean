import CppTorrent.Bencode.Grammar

/-! # The input of the info-hash

The constructor of `Torrent` reads the metainfo file, takes the value of the key `info`, writes it
again and hashes what it has written. Peers and trackers hash the bytes of the file. The two are the
same if the value is canonical in the file: the reader forgets the order of the keys and the leading
zeros, and nothing else (`makeSerialize_denote`). The rest of the file need not be canonical. -/

namespace CppTorrent.Bencode.InfoHash

open CppTorrent.Lib.Decimal CppTorrent.Lib.Stream CppTorrent.Lib.OrderedMap
open CppTorrent.Bencode.Serialize CppTorrent.Bencode.Deserialize CppTorrent.Bencode.Grammar

/-! ### The constructor -/

/-- `Node::operator[]` with a key, where the node is not constant: what is not a map becomes an empty
one, and a key that is missing is given the default value of a node. -/
def subscript (key : List UInt8) : Node → Node
  | .dict d => (find key d).getD (.number 0)
  | _ => .number 0

/-- The key `info`. -/
def infoKey : List UInt8 := [105, 110, 102, 111]

/-- The bytes that the constructor of `Torrent` passes to `GetSHA1`. -/
def hashInput (n : ℕ) (file : List UInt8) : Outcome (List UInt8) :=
  (loadNode ample n (ofBytes file)).map fun dict => makeSerialize (subscript infoKey dict)

/-! ### Canonical texts -/

/-- The digits are the shortest ones, and zero has no sign. -/
def CanonicalNumber (neg : Bool) (digits : List UInt8) : Prop :=
  digits = decimal (value digits) ∧ (neg = true → value digits ≠ 0)

mutual

/-- Numbers and lengths are shortest, and the keys of every dictionary are strictly ascending. -/
def Canonical : Derivation → Prop
  | .number neg digits => CanonicalNumber neg digits
  | .str digits bytes => digits = decimal bytes.length
  | .list elems => CanonicalElems elems
  | .dict entries => (entries.Pairwise fun a b => a.1.2 < b.1.2) ∧ CanonicalEntries entries

/-- Every element is canonical. -/
def CanonicalElems : List Derivation → Prop
  | [] => True
  | t :: elems => Canonical t ∧ CanonicalElems elems

/-- Every key and every value is canonical. -/
def CanonicalEntries : List ((List UInt8 × List UInt8) × Derivation) → Prop
  | [] => True
  | ((digits, key), t) :: entries =>
    digits = decimal key.length ∧ Canonical t ∧ CanonicalEntries entries

end

theorem makeSerializeNumber_denote {neg : Bool} {digits : List UInt8}
    (h : CanonicalNumber neg digits) :
    makeSerializeNumber (denoteNumber neg digits) = textNumber neg digits := by
  obtain ⟨hdigits, hneg⟩ := h
  unfold denoteNumber textNumber makeSerializeNumber
  cases neg with
  | false =>
    simp only [Bool.false_eq_true, if_false]
    nth_rewrite 2 [hdigits]
    rfl
  | true =>
    obtain ⟨m, hm⟩ := Nat.exists_eq_add_one_of_ne_zero (hneg rfl)
    have hint : -((value digits : ℕ) : ℤ) = Int.negSucc m := by
      rw [hm]
      rfl
    simp only [if_true, hint, decimalInt]
    rw [← hm, ← hdigits]

theorem denoteEntries_eq_map : ∀ entries : List ((List UInt8 × List UInt8) × Derivation),
    denoteEntries entries = entries.map fun e => (e.1.2, denote e.2)
  | [] => rfl
  | ((_, _), _) :: entries => congrArg (_ :: ·) (denoteEntries_eq_map entries)

theorem ascending_denoteEntries {entries : List ((List UInt8 × List UInt8) × Derivation)}
    (h : entries.Pairwise fun a b => a.1.2 < b.1.2) : Ascending (denoteEntries entries) := by
  rw [denoteEntries_eq_map]
  exact List.pairwise_map.mpr h

mutual

/-- **What is read from a canonical text is written as that text.** -/
theorem makeSerialize_denote : ∀ t : Derivation, Canonical t → makeSerialize (denote t) = text t
  | .number _ _, ht => makeSerializeNumber_denote ht
  | .str digits bytes, ht => by
    rw [denote, makeSerialize, makeSerializeStr, text, textStr, ht]
  | .list elems, ht => by rw [denote, makeSerialize, text, makeSerializeElems_denote elems ht]
  | .dict entries, ht => by
    rw [denote, makeSerialize, text, firstWins_of_ascending (ascending_denoteEntries ht.1),
      makeSerializeEntries_denote entries ht.2]

theorem makeSerializeElems_denote : ∀ elems : List Derivation, CanonicalElems elems →
    makeSerializeElems (denoteElems elems) = textElems elems
  | [], _ => rfl
  | t :: elems, ht => by
    rw [denoteElems, makeSerializeElems, textElems, makeSerialize_denote t ht.1,
      makeSerializeElems_denote elems ht.2]

theorem makeSerializeEntries_denote : ∀ entries : List ((List UInt8 × List UInt8) × Derivation),
    CanonicalEntries entries → makeSerializeEntries (denoteEntries entries) = textEntries entries
  | [], _ => rfl
  | ((digits, key), t) :: entries, ht => by
    rw [denoteEntries, makeSerializeEntries, textEntries, makeSerialize_denote t ht.2.1,
      makeSerializeEntries_denote entries ht.2.2, makeSerializeStr, textStr, ht.1]

end

/-! ### The slice of the file -/

/-- What is found under a key is the value of its first entry. -/
theorem find_denoteEntries (key : List UInt8) :
    ∀ entries : List ((List UInt8 × List UInt8) × Derivation),
    find key (denoteEntries entries) =
      ((entries.filter fun e => e.1.2 = key).head?).map fun e => denote e.2
  | [] => rfl
  | ((digits, k), t) :: entries => by
    rw [denoteEntries, find]
    by_cases hk : k = key
    · rw [if_pos hk, List.filter_cons_of_pos (by simpa using hk)]
      rfl
    · rw [if_neg hk, List.filter_cons_of_neg (by simpa using hk), find_denoteEntries key entries]

/-- **The bytes that are hashed are the bytes of the file**: for a dictionary that contains the key
`info` once, with a canonical value, whatever the other entries look like. -/
theorem hashInput_eq_slice (entries : List ((List UInt8 × List UInt8) × Derivation))
    (hvalid : Valid (.dict entries)) {digits : List UInt8} {w : Derivation}
    (hinfo : (entries.filter fun e => e.1.2 = infoKey) = [((digits, infoKey), w)])
    (hw : Canonical w) :
    ∃ bound, ∀ n ≥ bound, hashInput n (text (.dict entries)) = .done (text w) (ofBytes []) := by
  obtain ⟨bound, hb⟩ := loadNode_of_exists (loadNode_text (.dict entries) hvalid)
  refine ⟨bound, fun n hn => ?_⟩
  have hload := hb n hn []
  have hfind : find infoKey (firstWins (denoteEntries entries)) = some (denote w) := by
    rw [find_firstWins, find_denoteEntries, hinfo]
    rfl
  rw [List.append_nil] at hload
  rw [hashInput, hload, Outcome.map_done, denote, subscript, hfind, Option.getD_some,
    makeSerialize_denote w hw]

/-- The entries of `d3:url2:xy04:infod6:lengthi3ee3:url1:ze`: a repeated key, and a length with a
leading zero outside the value of `info`. -/
def repeatedKey : List ((List UInt8 × List UInt8) × Derivation) :=
  [(([51], [117, 114, 108]), .str [50] [120, 121]),
    (([48, 52], infoKey), .dict [(([54], [108, 101, 110, 103, 116, 104]), .number false [51])]),
    (([51], [117, 114, 108]), .str [49] [122])]

/-- Of that file `d6:lengthi3ee` is hashed. -/
theorem hashInput_repeatedKey :
    ∃ bound, ∀ n ≥ bound, hashInput n (text (.dict repeatedKey)) =
      .done [100, 54, 58, 108, 101, 110, 103, 116, 104, 105, 51, 101, 101] (ofBytes []) := by
  have hvalid : Valid (.dict repeatedKey) := by
    simp only [repeatedKey, Valid, ValidEntries]
    decide
  have hcanonical : Canonical (.dict [(([54], [108, 101, 110, 103, 116, 104]), .number false [51])]) := by
    simp only [Canonical, CanonicalEntries, CanonicalNumber]
    decide
  exact hashInput_eq_slice repeatedKey hvalid rfl hcanonical

end CppTorrent.Bencode.InfoHash
