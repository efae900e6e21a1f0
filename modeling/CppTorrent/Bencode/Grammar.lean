import CppTorrent.Bencode.Deserialize

/-! # The grammar of bencode texts

A `Derivation` is a text of the grammar with its structure: the digits of a number or a length may
have leading zeros, the keys of a dictionary may come in any order and more than once. `text` is what
is written, `denote` the value it stands for, in which the first entry of each key wins, and `Valid`
says that the numerals are numerals and fit, and that no string is empty.

`loadNode_text` is the completeness of the reader: the text of a valid derivation in front of
anything is read to its end and not further. The serialisation of a value is one of its texts
(`text_derivationOf`), so that a value without empty strings is read back is a case of it
(`loadNode_makeSerialize`). -/

namespace CppTorrent.Bencode.Grammar

open CppTorrent.Lib.Decimal CppTorrent.Lib.Stream CppTorrent.Lib.Stream.IStream
open CppTorrent.Lib.OrderedMap
open CppTorrent.Bencode.Serialize CppTorrent.Bencode.Deserialize

/-! ### Derivations -/

/-- A derivation of the grammar. A string has the digits of its length, and its bytes. -/
inductive Derivation where
  | number (neg : Bool) (digits : List UInt8)
  | str (digits bytes : List UInt8)
  | list (elems : List Derivation)
  | dict (entries : List ((List UInt8 × List UInt8) × Derivation))

/-- The text of a string. -/
def textStr (digits bytes : List UInt8) : List UInt8 := digits ++ 58 :: bytes

/-- The text of a number. -/
def textNumber (neg : Bool) (digits : List UInt8) : List UInt8 :=
  105 :: ((if neg then 45 :: digits else digits) ++ [101])

/-- The number a numeral stands for. -/
def denoteNumber (neg : Bool) (digits : List UInt8) : ℤ :=
  if neg then -(value digits : ℤ) else value digits

/-- The length is a numeral and the length of the bytes, of which there is at least one. -/
def ValidStr (digits bytes : List UInt8) : Prop :=
  digits ≠ [] ∧ (∀ d ∈ digits, isDigit d = true) ∧ value digits = bytes.length ∧
    bytes ≠ [] ∧ bytes.length ≤ maxSize

/-- The digits are a numeral in range. -/
def ValidNumber (neg : Bool) (digits : List UInt8) : Prop :=
  digits ≠ [] ∧ (∀ d ∈ digits, isDigit d = true) ∧
    -2 ^ 63 ≤ denoteNumber neg digits ∧ denoteNumber neg digits < 2 ^ 63

instance (digits : List UInt8) : Decidable (∀ d ∈ digits, isDigit d = true) :=
  List.decidableBAll _ digits

instance (digits bytes : List UInt8) : Decidable (ValidStr digits bytes) :=
  inferInstanceAs (Decidable (_ ∧ _ ∧ _ ∧ _ ∧ _))

instance (neg : Bool) (digits : List UInt8) : Decidable (ValidNumber neg digits) :=
  inferInstanceAs (Decidable (_ ∧ _ ∧ _ ∧ _))

mutual

/-- The text of a derivation. -/
def text : Derivation → List UInt8
  | .number neg digits => textNumber neg digits
  | .str digits bytes => textStr digits bytes
  | .list elems => 108 :: (textElems elems ++ [101])
  | .dict entries => 100 :: (textEntries entries ++ [101])

/-- The texts of the elements of a list. -/
def textElems : List Derivation → List UInt8
  | [] => []
  | t :: elems => text t ++ textElems elems

/-- The texts of the entries of a dictionary. -/
def textEntries : List ((List UInt8 × List UInt8) × Derivation) → List UInt8
  | [] => []
  | ((digits, key), t) :: entries => textStr digits key ++ (text t ++ textEntries entries)

end

mutual

/-- The value a derivation stands for. -/
def denote : Derivation → Node
  | .number neg digits => .number (denoteNumber neg digits)
  | .str _ bytes => .str bytes
  | .list elems => .list (denoteElems elems)
  | .dict entries => .dict (firstWins (denoteEntries entries))

/-- The values of the elements of a list. -/
def denoteElems : List Derivation → List Node
  | [] => []
  | t :: elems => denote t :: denoteElems elems

/-- The keys and values of the entries of a dictionary, as they are written. -/
def denoteEntries : List ((List UInt8 × List UInt8) × Derivation) → List (List UInt8 × Node)
  | [] => []
  | ((_, key), t) :: entries => (key, denote t) :: denoteEntries entries

end

mutual

/-- The derivation is one of the grammar. -/
def Valid : Derivation → Prop
  | .number neg digits => ValidNumber neg digits
  | .str digits bytes => ValidStr digits bytes
  | .list elems => ValidElems elems
  | .dict entries => ValidEntries entries

/-- Every element is valid. -/
def ValidElems : List Derivation → Prop
  | [] => True
  | t :: elems => Valid t ∧ ValidElems elems

/-- Every key and every value is valid. -/
def ValidEntries : List ((List UInt8 × List UInt8) × Derivation) → Prop
  | [] => True
  | ((digits, key), t) :: entries => ValidStr digits key ∧ Valid t ∧ ValidEntries entries

end

/-! ### Strings and numbers -/

theorem loadStr_textStr {digits bytes : List UInt8} (h : ValidStr digits bytes)
    (rest : List UInt8) :
    loadStr ample (ofBytes (textStr digits bytes ++ rest)) = .done bytes (ofBytes rest) := by
  obtain ⟨hne, hds, hval, hbytes, hs⟩ := h
  obtain ⟨n, hn⟩ : ∃ n, bytes.length = n + 1 :=
    Nat.exists_eq_succ_of_ne_zero (by simpa using hbytes)
  have hconv : toUnsigned false (value digits) = (bytes.length, true) := by
    have : bytes.length < 2 ^ 64 := by unfold maxSize at hs; omega
    rw [hval, toUnsigned, if_pos this]
    rfl
  obtain ⟨x, hx⟩ : ∃ x, bytes.drop n = [x] :=
    List.length_eq_one_iff.mp (by rw [List.length_drop]; omega)
  have hcopy := copyN_append (t := bytes) rest hn
  rw [hx] at hcopy
  unfold loadStr textStr extractUnsigned
  rw [List.append_assoc, List.cons_append, extract_digits hne hds hconv (by decide)]
  have hmem : reserves ample (ofBytes (58 :: (bytes ++ rest))) bytes.length = true := by
    simp [reserves, ample, hs]
  dsimp only
  rw [if_pos hmem, get_cons, hn, hcopy]
  rfl

theorem loadNumber_textNumber {neg : Bool} {digits : List UInt8} (h : ValidNumber neg digits)
    (rest : List UInt8) :
    loadNumber (ofBytes (textNumber neg digits ++ rest)) =
      .done (.number (denoteNumber neg digits)) (ofBytes rest) := by
  obtain ⟨hne, hds, h1, h2⟩ := h
  unfold loadNumber textNumber extractSigned
  rw [List.cons_append, get_cons, List.append_assoc, List.singleton_append]
  cases neg with
  | false =>
    simp only [denoteNumber, Bool.false_eq_true, if_false] at h2 ⊢
    have hconv := congrArg (fun x => (some x.1, x.2)) (toSigned_false (n := value digits) (by omega))
    rw [extract_digits hne hds hconv (by decide)]
    rfl
  | true =>
    simp only [denoteNumber, if_true] at h1 ⊢
    have hconv := congrArg (fun x => (some x.1, x.2)) (toSigned_true (n := value digits) (by omega))
    rw [List.cons_append, extract_neg_digits hne hds hconv (by decide)]
    rfl

/-- A string is written with a digit in front, so `LoadNode` does not take it for anything else. -/
theorem textStr_eq_cons {digits bytes : List UInt8} (h : ValidStr digits bytes) :
    ∃ d t, textStr digits bytes = d :: t ∧ d ≠ 105 ∧ d ≠ 108 ∧ d ≠ 100 ∧ d ≠ 255 ∧ d ≠ 101 := by
  obtain ⟨hne, hds, -⟩ := h
  obtain ⟨d, ds, rfl⟩ := List.exists_cons_of_ne_nil hne
  have hd := hds d List.mem_cons_self
  refine ⟨d, ds ++ 58 :: bytes, rfl, ?_⟩
  refine ⟨?_, ?_, ?_, ?_, ?_⟩ <;> rintro rfl <;> revert hd <;> decide

theorem text_eq_cons {t : Derivation} (h : Valid t) : ∃ b s, text t = b :: s ∧ b ≠ 101 := by
  cases t with
  | number neg digits => exact ⟨105, _, rfl, by decide⟩
  | str digits bytes =>
    obtain ⟨d, s, hs, -, -, -, -, hd⟩ := textStr_eq_cons h
    exact ⟨d, s, hs, hd⟩
  | list elems => exact ⟨108, _, rfl, by decide⟩
  | dict entries => exact ⟨100, _, rfl, by decide⟩

/-! ### Completeness -/

/-- One round of the list loop. -/
theorem loadArrayLoop_cons {n : ℕ} {acc : List Node} {b : UInt8} {t : List UInt8} (hb : b ≠ 101) :
    loadArrayLoop ample (n + 1) acc (ofBytes (b :: t)) =
      (loadNode ample n (ofBytes (b :: t))).bind fun v s => loadArrayLoop ample n (acc ++ [v]) s := by
  rw [loadArrayLoop]
  simp only [peek_cons, Option.some.injEq, hb, if_false]

/-- One round of the dictionary loop. -/
theorem loadDictLoop_cons {n : ℕ} {acc : List (List UInt8 × Node)} {b : UInt8} {t : List UInt8}
    (hb : b ≠ 101) :
    loadDictLoop ample (n + 1) acc (ofBytes (b :: t)) =
      (loadStr ample (ofBytes (b :: t))).bind fun key s =>
        (loadNode ample n s).bind fun v s => loadDictLoop ample n (emplace key v acc) s := by
  rw [loadDictLoop]
  simp only [peek_cons, Option.some.injEq, hb, if_false]

mutual

/-- **The text of a valid derivation is read**, and nothing after it is touched. -/
theorem loadNode_text : ∀ t : Derivation, Valid t →
    ∃ n, ∀ rest, loadNode ample n (ofBytes (text t ++ rest)) = .done (denote t) (ofBytes rest)
  | .number neg digits, ht => ⟨1, fun rest => by
      have h := loadNumber_textNumber ht rest
      rw [textNumber, List.cons_append] at h
      rw [loadNode]
      simpa only [text, textNumber, List.cons_append, peek_cons, if_true, denote] using h⟩
  | .str digits bytes, ht => ⟨1, fun rest => by
      have h := loadStr_textStr ht rest
      obtain ⟨d, s, hs, h1, h2, h3, h4, -⟩ := textStr_eq_cons ht
      rw [hs, List.cons_append] at h
      rw [loadNode, text, hs, List.cons_append]
      simp only [peek_cons, Option.some.injEq, h1, h2, h3, h4, reduceCtorEq, or_self, if_false, h,
        Outcome.map_done, denote]⟩
  | .list elems, ht => by
    obtain ⟨n, hn⟩ := loadArrayLoop_text elems ht
    refine ⟨n + 2, fun rest => ?_⟩
    have h := hn [] rest
    rw [List.nil_append] at h
    rw [loadNode, text, List.cons_append, List.append_assoc, List.singleton_append]
    simp only [peek_cons, Option.some.injEq, show (108 : UInt8) ≠ 105 by decide, if_false, if_true]
    rw [loadArray, get_cons, h, denote]
  | .dict entries, ht => by
    obtain ⟨n, hn⟩ := loadDictLoop_text entries ht
    refine ⟨n + 2, fun rest => ?_⟩
    have h := hn [] rest
    rw [foldl_emplace] at h
    rw [loadNode, text, List.cons_append, List.append_assoc, List.singleton_append]
    simp only [peek_cons, Option.some.injEq, show (100 : UInt8) ≠ 105 by decide,
      show (100 : UInt8) ≠ 108 by decide, if_false, true_or, if_true]
    rw [loadDict, peek_cons]
    simp only [reduceCtorEq, if_false, get_cons, h, denote]

theorem loadArrayLoop_text : ∀ elems : List Derivation, ValidElems elems →
    ∃ n, ∀ acc rest, loadArrayLoop ample n acc (ofBytes (textElems elems ++ 101 :: rest)) =
      .done (.list (acc ++ denoteElems elems)) (ofBytes rest)
  | [], _ => ⟨1, fun acc rest => by
      rw [loadArrayLoop, textElems, denoteElems, List.nil_append, List.append_nil]
      simp only [peek_cons, if_true, get_cons]⟩
  | t :: elems, ht => by
    obtain ⟨n1, h1⟩ := loadNode_text t ht.1
    obtain ⟨n2, h2⟩ := loadArrayLoop_text elems ht.2
    refine ⟨max n1 n2 + 1, fun acc rest => ?_⟩
    have e1 := h1 (textElems elems ++ 101 :: rest)
    have e2 := h2 (acc ++ [denote t]) rest
    rw [← loadNode_mono (le_max_left n1 n2) (by rw [e1]; simp)] at e1
    rw [← loadArrayLoop_mono (le_max_right n1 n2) (by rw [e2]; simp)] at e2
    obtain ⟨b, s, hs, hb⟩ := text_eq_cons ht.1
    rw [textElems, denoteElems, List.append_assoc]
    rw [hs, List.cons_append] at e1 ⊢
    rw [loadArrayLoop_cons hb, e1, Outcome.bind_done, e2, List.append_assoc, List.singleton_append]

theorem loadDictLoop_text : ∀ entries : List ((List UInt8 × List UInt8) × Derivation),
    ValidEntries entries →
    ∃ n, ∀ acc rest, loadDictLoop ample n acc (ofBytes (textEntries entries ++ 101 :: rest)) =
      .done (.dict ((denoteEntries entries).foldl (fun m e => emplace e.1 e.2 m) acc)) (ofBytes rest)
  | [], _ => ⟨1, fun acc rest => by
      rw [loadDictLoop, textEntries, denoteEntries, List.nil_append, List.foldl_nil]
      simp only [peek_cons, if_true, get_cons]⟩
  | ((digits, key), t) :: entries, ht => by
    obtain ⟨hkey, ht, hentries⟩ := ht
    obtain ⟨n1, h1⟩ := loadNode_text t ht
    obtain ⟨n2, h2⟩ := loadDictLoop_text entries hentries
    refine ⟨max n1 n2 + 1, fun acc rest => ?_⟩
    have e0 := loadStr_textStr hkey (text t ++ (textEntries entries ++ 101 :: rest))
    have e1 := h1 (textEntries entries ++ 101 :: rest)
    have e2 := h2 (emplace key (denote t) acc) rest
    rw [← loadNode_mono (le_max_left n1 n2) (by rw [e1]; simp)] at e1
    rw [← loadDictLoop_mono (le_max_right n1 n2) (by rw [e2]; simp)] at e2
    obtain ⟨b, s, hs, -, -, -, -, hb⟩ := textStr_eq_cons hkey
    rw [textEntries, denoteEntries, List.append_assoc, List.append_assoc]
    rw [hs, List.cons_append] at e0 ⊢
    rw [loadDictLoop_cons hb, e0, Outcome.bind_done, e1, Outcome.bind_done, e2, List.foldl_cons]

end

/-! ### The serialisation of a value is a text -/

mutual

/-- The derivation of the serialisation of a value. -/
def derivationOf : Node → Derivation
  | .number i => .number (decide (i < 0)) (decimal i.natAbs)
  | .str s => .str (decimal s.length) s
  | .list arr => .list (derivationOfElems arr)
  | .dict d => .dict (derivationOfEntries d)

/-- The derivations of the elements of a list. -/
def derivationOfElems : List Node → List Derivation
  | [] => []
  | v :: arr => derivationOf v :: derivationOfElems arr

/-- The derivations of the entries of a map. -/
def derivationOfEntries : List (List UInt8 × Node) →
    List ((List UInt8 × List UInt8) × Derivation)
  | [] => []
  | (k, v) :: d => ((decimal k.length, k), derivationOf v) :: derivationOfEntries d

end

theorem textNumber_decimal (i : ℤ) :
    textNumber (decide (i < 0)) (decimal i.natAbs) = makeSerializeNumber i := by
  cases i with
  | ofNat n =>
    have hneg : decide (Int.ofNat n < 0) = false := by simp
    rw [hneg]
    rfl
  | negSucc n =>
    have hneg : decide (Int.negSucc n < 0) = true := by simp
    rw [hneg]
    rfl

theorem denoteNumber_decimal (i : ℤ) : denoteNumber (decide (i < 0)) (decimal i.natAbs) = i := by
  unfold denoteNumber
  rw [value_decimal]
  by_cases h : i < 0
  · rw [decide_eq_true h, if_pos rfl]
    omega
  · rw [decide_eq_false h, if_neg Bool.false_ne_true]
    omega

mutual

theorem text_derivationOf : ∀ v : Node, text (derivationOf v) = makeSerialize v
  | .number i => textNumber_decimal i
  | .str s => rfl
  | .list arr => by rw [derivationOf, text, makeSerialize, textElems_derivationOf arr]
  | .dict d => by rw [derivationOf, text, makeSerialize, textEntries_derivationOf d]

theorem textElems_derivationOf : ∀ arr : List Node,
    textElems (derivationOfElems arr) = makeSerializeElems arr
  | [] => rfl
  | v :: arr => by
    rw [derivationOfElems, textElems, makeSerializeElems, text_derivationOf v,
      textElems_derivationOf arr]

theorem textEntries_derivationOf : ∀ d : List (List UInt8 × Node),
    textEntries (derivationOfEntries d) = makeSerializeEntries d
  | [] => rfl
  | (k, v) :: d => by
    rw [derivationOfEntries, textEntries, makeSerializeEntries, text_derivationOf v,
      textEntries_derivationOf d]
    rfl

end

mutual

theorem denote_derivationOf : ∀ v : Node, WF v → denote (derivationOf v) = v
  | .number i, _ => congrArg Node.number (denoteNumber_decimal i)
  | .str s, _ => rfl
  | .list arr, hv => by rw [derivationOf, denote, denoteElems_derivationOf arr hv]
  | .dict d, hv => by
    rw [derivationOf, denote, denoteEntries_derivationOf d hv.2, firstWins_of_ascending hv.1]

theorem denoteElems_derivationOf : ∀ arr : List Node, WFElems arr →
    denoteElems (derivationOfElems arr) = arr
  | [], _ => rfl
  | v :: arr, hv => by
    rw [derivationOfElems, denoteElems, denote_derivationOf v hv.1, denoteElems_derivationOf arr hv.2]

theorem denoteEntries_derivationOf : ∀ d : List (List UInt8 × Node), WFEntries d →
    denoteEntries (derivationOfEntries d) = d
  | [], _ => rfl
  | (k, v) :: d, hv => by
    rw [derivationOfEntries, denoteEntries, denote_derivationOf v hv.2.1,
      denoteEntries_derivationOf d hv.2.2]

end

theorem validStr_decimal {s : List UInt8} (hs : s.length ≤ maxSize) (he : emptyStr s = 0) :
    ValidStr (decimal s.length) s := by
  refine ⟨decimal_ne_nil _, fun _ => isDigit_of_mem_decimal, value_decimal _, ?_, hs⟩
  rintro rfl
  cases he

mutual

theorem valid_derivationOf : ∀ v : Node, WF v → emptyStrings v = 0 → Valid (derivationOf v)
  | .number i, hv, _ =>
    ⟨decimal_ne_nil _, fun _ => isDigit_of_mem_decimal, by rw [denoteNumber_decimal]; exact hv⟩
  | .str s, hv, he => validStr_decimal hv he
  | .list arr, hv, he => validElems_derivationOf arr hv he
  | .dict d, hv, he => validEntries_derivationOf d hv.2 he

theorem validElems_derivationOf : ∀ arr : List Node, WFElems arr → emptyStringsElems arr = 0 →
    ValidElems (derivationOfElems arr)
  | [], _, _ => trivial
  | v :: arr, hv, he => by
    rw [emptyStringsElems] at he
    exact ⟨valid_derivationOf v hv.1 (by omega), validElems_derivationOf arr hv.2 (by omega)⟩

theorem validEntries_derivationOf : ∀ d : List (List UInt8 × Node), WFEntries d →
    emptyStringsEntries d = 0 → ValidEntries (derivationOfEntries d)
  | [], _, _ => trivial
  | (k, v) :: d, hv, he => by
    rw [emptyStringsEntries] at he
    exact ⟨validStr_decimal hv.1 (by omega), valid_derivationOf v hv.2.1 (by omega),
      validEntries_derivationOf d hv.2.2 (by omega)⟩

end

/-- **A value without empty strings is read back**, and nothing after it is touched. -/
theorem loadNode_makeSerialize (v : Node) (hv : WF v) (he : emptyStrings v = 0) :
    ∃ n, ∀ rest, loadNode ample n (ofBytes (makeSerialize v ++ rest)) = .done v (ofBytes rest) := by
  obtain ⟨n, hn⟩ := loadNode_text (derivationOf v) (valid_derivationOf v hv he)
  rw [text_derivationOf, denote_derivationOf v hv] at hn
  exact ⟨n, hn⟩

/-! ### What is read from a text -/

theorem emptyStringsEntries_eq_zero_iff : ∀ {d : List (List UInt8 × Node)},
    emptyStringsEntries d = 0 ↔ ∀ e ∈ d, emptyStr e.1 = 0 ∧ emptyStrings e.2 = 0
  | [] => by simp [emptyStringsEntries]
  | (k, v) :: d => by
    simp only [emptyStringsEntries, List.mem_cons, forall_eq_or_imp, Nat.add_eq_zero_iff,
      emptyStringsEntries_eq_zero_iff]

theorem emptyStr_of_validStr {digits bytes : List UInt8} (h : ValidStr digits bytes) :
    emptyStr bytes = 0 := if_neg h.2.2.2.1

mutual

theorem emptyStrings_denote : ∀ t : Derivation, Valid t → emptyStrings (denote t) = 0
  | .number _ _, _ => rfl
  | .str _ _, ht => emptyStr_of_validStr ht
  | .list elems, ht => emptyStrings_denoteElems elems ht
  | .dict entries, ht => by
    have h := emptyStringsEntries_eq_zero_iff.mp (emptyStrings_denoteEntries entries ht)
    exact emptyStringsEntries_eq_zero_iff.mpr fun e he => h e (mem_firstWins he)

theorem emptyStrings_denoteElems : ∀ elems : List Derivation, ValidElems elems →
    emptyStringsElems (denoteElems elems) = 0
  | [], _ => rfl
  | t :: elems, ht => by
    rw [denoteElems, emptyStringsElems, emptyStrings_denote t ht.1,
      emptyStrings_denoteElems elems ht.2]

theorem emptyStrings_denoteEntries : ∀ entries : List ((List UInt8 × List UInt8) × Derivation),
    ValidEntries entries → emptyStringsEntries (denoteEntries entries) = 0
  | [], _ => rfl
  | ((_, key), t) :: entries, ht => by
    rw [denoteEntries, emptyStringsEntries, emptyStr_of_validStr ht.1, emptyStrings_denote t ht.2.1,
      emptyStrings_denoteEntries entries ht.2.2]

end

theorem wf_denote {t : Derivation} (ht : Valid t) : WF (denote t) := by
  obtain ⟨n, hn⟩ := loadNode_text t ht
  exact loadNode_wf (hn [])

/-- A reader that has stopped gives its result from some number of steps on. -/
theorem loadNode_of_exists {α : Type} {input : α → IStream} {v : Node} {left : α → IStream}
    (h : ∃ n, ∀ a, loadNode ample n (input a) = .done v (left a)) :
    ∃ bound, ∀ n ≥ bound, ∀ a, loadNode ample n (input a) = .done v (left a) := by
  obtain ⟨bound, hb⟩ := h
  refine ⟨bound, fun n hn a => ?_⟩
  rw [loadNode_mono hn (by rw [hb a]; simp), hb a]

/-- **The reader is complete**: the text of a derivation is read as the value it stands for, up to its
end; and what is read from its serialisation is that value again. -/
theorem loadNode_of_derivation (t : Derivation) (ht : Valid t) :
    (∃ bound, ∀ n ≥ bound, ∀ rest,
        loadNode ample n (ofBytes (text t ++ rest)) = .done (denote t) (ofBytes rest)) ∧
      ∃ bound, ∀ n ≥ bound,
        loadNode ample n (ofBytes (makeSerialize (denote t))) = .done (denote t) (ofBytes []) := by
  refine ⟨loadNode_of_exists (loadNode_text t ht), ?_⟩
  obtain ⟨bound, hb⟩ := loadNode_of_exists
    (loadNode_makeSerialize (denote t) (wf_denote ht) (emptyStrings_denote t ht))
  refine ⟨bound, fun n hn => ?_⟩
  have h := hb n hn []
  rwa [List.append_nil] at h

/-- The dictionary `d1:bi-007e01:al2:xye1:bi1ee`: keys out of order, one of them twice, and leading
zeros. -/
theorem loadNode_of_derivation_unsorted :
    ∃ bound, ∀ n ≥ bound, ∀ rest,
      loadNode ample n (ofBytes ([100, 49, 58, 98, 105, 45, 48, 48, 55, 101, 48, 49, 58, 97, 108, 50, 58,
        120, 121, 101, 49, 58, 98, 105, 49, 101, 101] ++ rest)) =
        .done (.dict [([97], .list [.str [120, 121]]), ([98], .number (-7))]) (ofBytes rest) :=
  (loadNode_of_derivation (.dict [(([49], [98]), .number true [48, 48, 55]),
    (([48, 49], [97]), .list [.str [50] [120, 121]]), (([49], [98]), .number false [49])])
    (by simp only [Valid, ValidEntries, ValidElems]; decide)).1

end CppTorrent.Bencode.Grammar
