import CppTorrent.Lib.Decimal
import CppTorrent.Lib.OrderedMap

/-! # Bencode values and their serialisation

`bencode::Node` is a variant of `long long`, `std::string`, `std::vector<Node>` and
`std::map<std::string, Node>`. A map is the ascending list of its entries. `WF` says which trees are
values of the type: numbers in range, strings no longer than a string can be, keys ascending.
`makeSerialize` is the overload set `bencode::Serialize::MakeSerialize`, writing to the end of a text.

`emptyStrings` counts the empty strings of a value, keys included; the reader of this format takes
one byte too many for each of them. -/

namespace CppTorrent.Bencode.Serialize

open CppTorrent.Lib.Decimal CppTorrent.Lib.OrderedMap

/-- `bencode::Node`. -/
inductive Node where
  | number (n : ℤ)
  | str (s : List UInt8)
  | list (arr : List Node)
  | dict (d : List (List UInt8 × Node))

/-- `std::string::max_size()`; `reserve` throws above it. -/
def maxSize : ℕ := 2 ^ 63 - 1

mutual

/-- The tree is a value of the C++ type. -/
def WF : Node → Prop
  | .number n => -2 ^ 63 ≤ n ∧ n < 2 ^ 63
  | .str s => s.length ≤ maxSize
  | .list arr => WFElems arr
  | .dict d => Ascending d ∧ WFEntries d

/-- Every element is a value. -/
def WFElems : List Node → Prop
  | [] => True
  | v :: arr => WF v ∧ WFElems arr

/-- Every key and every mapped value is a value. -/
def WFEntries : List (List UInt8 × Node) → Prop
  | [] => True
  | (k, v) :: d => k.length ≤ maxSize ∧ WF v ∧ WFEntries d

end

/-- `MakeSerialize<std::string>`. -/
def makeSerializeStr (s : List UInt8) : List UInt8 := decimal s.length ++ 58 :: s

/-- `MakeSerialize<long long>`. -/
def makeSerializeNumber (n : ℤ) : List UInt8 := 105 :: (decimalInt n ++ [101])

mutual

/-- `MakeSerialize<Node>`: visits the alternative held. -/
def makeSerialize : Node → List UInt8
  | .number n => makeSerializeNumber n
  | .str s => makeSerializeStr s
  | .list arr => 108 :: (makeSerializeElems arr ++ [101])
  | .dict d => 100 :: (makeSerializeEntries d ++ [101])

/-- The loop of `MakeSerialize<std::vector<Node>>`. -/
def makeSerializeElems : List Node → List UInt8
  | [] => []
  | v :: arr => makeSerialize v ++ makeSerializeElems arr

/-- The loop of `MakeSerialize<std::map<std::string, Node>>`. -/
def makeSerializeEntries : List (List UInt8 × Node) → List UInt8
  | [] => []
  | (k, v) :: d => makeSerializeStr k ++ (makeSerialize v ++ makeSerializeEntries d)

end

/-- One for an empty string, zero for any other. -/
def emptyStr (s : List UInt8) : ℕ := if s = [] then 1 else 0

mutual

/-- The number of empty strings in a value, keys included. -/
def emptyStrings : Node → ℕ
  | .number _ => 0
  | .str s => emptyStr s
  | .list arr => emptyStringsElems arr
  | .dict d => emptyStringsEntries d

/-- The number of empty strings in a list of values. -/
def emptyStringsElems : List Node → ℕ
  | [] => 0
  | v :: arr => emptyStrings v + emptyStringsElems arr

/-- The number of empty strings in a list of entries. -/
def emptyStringsEntries : List (List UInt8 × Node) → ℕ
  | [] => 0
  | (k, v) :: d => emptyStr k + emptyStrings v + emptyStringsEntries d

end

/-! ### The weight of a value: what a reader has to take for it -/

/-- The bytes of a string and one more if it is empty. -/
def strWeight (s : List UInt8) : ℕ := (makeSerializeStr s).length + emptyStr s

/-- The bytes of a value and one more for each empty string in it. -/
def weight (v : Node) : ℕ := (makeSerialize v).length + emptyStrings v

/-- The weight of an entry of a map. -/
def entryWeight (e : List UInt8 × Node) : ℕ := strWeight e.1 + weight e.2

theorem elems_weight : ∀ arr : List Node,
    (makeSerializeElems arr).length + emptyStringsElems arr = (arr.map weight).sum
  | [] => rfl
  | v :: arr => by
    have ih := elems_weight arr
    simp only [makeSerializeElems, emptyStringsElems, List.length_append, List.map_cons,
      List.sum_cons, weight]
    omega

theorem entries_weight : ∀ d : List (List UInt8 × Node),
    (makeSerializeEntries d).length + emptyStringsEntries d = (d.map entryWeight).sum
  | [] => rfl
  | (k, v) :: d => by
    have ih := entries_weight d
    simp only [makeSerializeEntries, emptyStringsEntries, List.length_append, List.map_cons,
      List.sum_cons, entryWeight, weight, strWeight]
    omega

theorem weight_list (arr : List Node) : weight (.list arr) = (arr.map weight).sum + 2 := by
  have := elems_weight arr
  simp only [weight, makeSerialize, emptyStrings, List.length_cons, List.length_append,
    List.length_nil] at *
  omega

theorem weight_dict (d : List (List UInt8 × Node)) :
    weight (.dict d) = (d.map entryWeight).sum + 2 := by
  have := entries_weight d
  simp only [weight, makeSerialize, emptyStrings, List.length_cons, List.length_append,
    List.length_nil] at *
  omega

/-! ### Well-formed lists -/

theorem wfElems_append : ∀ {a b : List Node}, WFElems (a ++ b) ↔ WFElems a ∧ WFElems b
  | [], b => by simp [WFElems]
  | v :: a, b => by
    rw [List.cons_append, WFElems, WFElems, wfElems_append, and_assoc]

theorem wfEntries_iff : ∀ {d : List (List UInt8 × Node)},
    WFEntries d ↔ ∀ e ∈ d, e.1.length ≤ maxSize ∧ WF e.2
  | [] => by simp [WFEntries]
  | (k, v) :: d => by
    rw [WFEntries, wfEntries_iff]
    simp only [List.mem_cons, forall_eq_or_imp]
    exact and_assoc.symm

theorem wfEntries_emplace {d : List (List UInt8 × Node)} {k : List UInt8} {v : Node}
    (hd : WFEntries d) (hk : k.length ≤ maxSize) (hv : WF v) : WFEntries (emplace k v d) := by
  rw [wfEntries_iff] at hd ⊢
  intro e he
  rcases mem_emplace he with rfl | he
  · exact ⟨hk, hv⟩
  · exact hd e he

end CppTorrent.Bencode.Serialize
