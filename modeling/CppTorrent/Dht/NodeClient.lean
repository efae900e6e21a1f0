import CppTorrent.Bencode.Halting
import CppTorrent.Bencode.Unique
import CppTorrent.Wire.Message

/-! # The documents in DHT messages

`MakeMessage` writes a document into a string stream and copies the stream into the message with the
overload of `CopyFrom` for streams. This one runs an `istream_iterator<int>` over the stream: it reads
decimal numbers and puts each of them into the message as one byte. A bencoded document begins with a
letter, or with the length of a string, so the message is empty or has one byte (`makeMessage_data`),
and is never the document (`makeMessage_never_carries`). -/

namespace CppTorrent.Dht.NodeClient

open CppTorrent.Lib.Decimal CppTorrent.Lib.Stream CppTorrent.Lib.Stream.IStream
open CppTorrent.Bencode.Serialize CppTorrent.Bencode.Deserialize CppTorrent.Bencode.Unique
open CppTorrent.Bencode.Halting CppTorrent.Wire.Message

/-- `SendingMessage::CopyFrom(std::istream &)`. -/
def copyFromStream (is : IStream) (msg : SendingMessage) : SendingMessage :=
  { msg with data := msg.data ++ is.ints.map UInt8.ofInt }

/-- `NodeClient::MakeMessage`. -/
def makeMessage (doc : Node) : SendingMessage :=
  copyFromStream (ofBytes (makeSerialize doc)) ⟨.bigEndian, []⟩

/-- `bencode::Deserialize::Load` of `get_dht_query` on a datagram, in at most `n` steps. -/
def getDhtQuery (n : ℕ) (data : List UInt8) : Outcome Node := loadNode ample n (ofBytes data)

/-- The message is the document, and the receiver reads the document from it. -/
def Carries (doc : Node) : Prop :=
  (makeMessage doc).data = makeSerialize doc ∧
    ∃ n s, getDhtQuery n (makeMessage doc).data = .done doc s

theorem ofInt_natCast (n : ℕ) : UInt8.ofInt n = UInt8.ofNat n := by
  have hmod : ((n : ℤ) % 2 ^ 8).toNat = n % 2 ^ 8 := by omega
  rw [UInt8.ofInt, hmod, UInt8.ofNat_mod_size]

/-- **What is sent for a document**: the lowest byte of the length of a string, and nothing for any
other document. -/
theorem makeMessage_data (doc : Node) :
    (makeMessage doc).data =
      match doc with
      | .str s => if s.length < 2 ^ 31 then [UInt8.ofNat s.length] else []
      | _ => [] := by
  have hletter : ∀ (b : UInt8) (t : List UInt8), isSpace b = false → (b ≠ 43 ∧ b ≠ 45) →
      isDigit b = false → (copyFromStream (ofBytes (b :: t)) ⟨.bigEndian, []⟩).data = [] := by
    intro b t hspace hsign hdigit
    rw [copyFromStream, ints_of_letter t hspace hsign hdigit]
    rfl
  cases doc with
  | number n => exact hletter 105 _ (by decide) (by decide) (by decide)
  | list arr => exact hletter 108 _ (by decide) (by decide) (by decide)
  | dict d => exact hletter 100 _ (by decide) (by decide) (by decide)
  | str s =>
    have hds : ∀ d ∈ decimal s.length, isDigit d = true := fun d hd => isDigit_of_mem_decimal hd
    dsimp only
    by_cases hlen : s.length < 2 ^ 31
    · -- the length, and then the colon
      have hconv : toInt false (value (decimal s.length)) = ((s.length : ℤ), true) := by
        rw [value_decimal, toInt, if_neg Bool.false_ne_true, if_pos hlen]
      have hextract : (ofBytes (decimal s.length ++ 58 :: s)).extract toInt 0 0 =
          ((s.length : ℤ), ofBytes (58 :: s)) :=
        extract_digits (decimal_ne_nil s.length) hds hconv (by decide)
      have hints : (ofBytes (decimal s.length ++ 58 :: s)).ints = [(s.length : ℤ)] := by
        rw [ints_of_done hextract rfl, ints_of_letter s (by decide) (by decide) (by decide)]
      rw [if_pos hlen, makeMessage, makeSerialize, makeSerializeStr, copyFromStream, hints,
        List.map_singleton, ofInt_natCast]
      rfl
    · -- the length does not fit into an `int`
      have hconv : toInt false (value (decimal s.length)) = (2 ^ 31 - 1, false) := by
        rw [value_decimal, toInt, if_neg Bool.false_ne_true, if_neg hlen]
      have hextract : (ofBytes (decimal s.length ++ 58 :: s)).extract toInt 0 0 =
          (2 ^ 31 - 1, ⟨58 :: s, false, true⟩) :=
        extract_digits_conv (decimal_ne_nil s.length) hds hconv (by decide)
      have hints : (ofBytes (decimal s.length ++ 58 :: s)).ints = [] := by
        refine ints_of_fail ?_
        rw [extractInt, hextract]
      rw [if_neg hlen, makeMessage, makeSerialize, makeSerializeStr, copyFromStream, hints]
      rfl

theorem length_makeMessage_le (doc : Node) : (makeMessage doc).data.length ≤ 1 := by
  rw [makeMessage_data]
  cases doc with
  | str s =>
    dsimp only
    split_ifs
    · exact le_rfl
    · exact Nat.zero_le 1
  | _ => exact Nat.zero_le 1

theorem two_le_length_makeSerialize (doc : Node) : 2 ≤ (makeSerialize doc).length := by
  cases doc with
  | number n =>
    rw [makeSerialize, makeSerializeNumber, List.length_cons, List.length_append,
      List.length_singleton]
    omega
  | str s =>
    have hpos := length_decimal_pos s.length
    rw [makeSerialize, makeSerializeStr, List.length_append, List.length_cons]
    omega
  | list arr =>
    rw [makeSerialize, List.length_cons, List.length_append, List.length_singleton]
    omega
  | dict d =>
    rw [makeSerialize, List.length_cons, List.length_append, List.length_singleton]
    omega

/-- **No message carries its document**: what is sent is never what `MakeSerialize` writes. -/
theorem makeMessage_never_carries (doc : Node) : ¬ Carries doc := by
  rintro ⟨heq, -⟩
  have hle := length_makeMessage_le doc
  have hge := two_le_length_makeSerialize doc
  rw [heq] at hle
  omega

/-- The query `{"q": "ping"}` is sent as an empty message. -/
theorem ping_not_carried :
    emptyStrings (.dict [([113], .str [112, 105, 110, 103])]) = 0 ∧
      (makeMessage (.dict [([113], .str [112, 105, 110, 103])])).data ≠
        makeSerialize (.dict [([113], .str [112, 105, 110, 103])]) := by
  refine ⟨rfl, ?_⟩
  rw [makeMessage_data]
  decide

/-! ### What the receiver reads -/

/-- The receiver of an empty message reads the empty dictionary. -/
theorem getDhtQuery_nil (n : ℕ) :
    getDhtQuery (n + 2) [] = .done (.dict []) ⟨[], true, true⟩ := rfl

theorem loadDictLoop_ne_str : ∀ (n : ℕ) (d : List (List UInt8 × Node)) (s : IStream) {str s'},
    loadDictLoop ample n d s ≠ .done (.str str) s'
  | 0, _, _, _, _, h => by cases h
  | n + 1, d, s, str, s', h => by
    rw [loadDictLoop] at h
    dsimp only at h
    split_ifs at h
    · cases h
    · obtain ⟨key, s1, -, h⟩ := Outcome.bind_eq_done h
      obtain ⟨v, s2, -, h⟩ := Outcome.bind_eq_done h
      exact loadDictLoop_ne_str n _ s2 h

theorem loadArrayLoop_ne_str : ∀ (n : ℕ) (arr : List Node) (s : IStream) {str s'},
    loadArrayLoop ample n arr s ≠ .done (.str str) s'
  | 0, _, _, _, _, h => by cases h
  | n + 1, arr, s, str, s', h => by
    rw [loadArrayLoop] at h
    dsimp only at h
    split_ifs at h
    · cases h
    · obtain ⟨v, s1, -, h⟩ := Outcome.bind_eq_done h
      exact loadArrayLoop_ne_str n _ s1 h

/-- A string is read by `LoadStr`. -/
theorem loadStr_of_loadNode {n : ℕ} {s s' : IStream} {str : List UInt8}
    (h : loadNode ample n s = .done (.str str) s') : loadStr ample s.peek.2 = .done str s' := by
  cases n with
  | zero => cases h
  | succ n =>
    rw [loadNode] at h
    dsimp only at h
    split_ifs at h
    · obtain ⟨number, -, hv, -⟩ := loadNumber_eq_done h
      cases hv
    · cases n with
      | zero => cases h
      | succ n =>
        rw [loadArray] at h
        exact absurd h (loadArrayLoop_ne_str n _ _)
    · cases n with
      | zero => cases h
      | succ n =>
        rw [loadDict] at h
        dsimp only at h
        split_ifs at h
        · cases h
        · exact absurd h (loadDictLoop_ne_str n _ _)
    · obtain ⟨str', hdone, hstr⟩ := Outcome.map_eq_done h
      cases hstr
      exact hdone

/-- The number that is extracted from a single byte. -/
theorem extractUnsigned_byte (b : UInt8) :
    ((ofBytes [b]).extractUnsigned 0).1 = if isDigit b = true then digitVal b else 0 := by
  unfold extractUnsigned extract
  rw [good_ofBytes, if_pos rfl, buf_ofBytes]
  by_cases hdigit : isDigit b = true
  · have hdrop : [b].dropWhile isSpace = [b] := by simp [isSpace_of_isDigit hdigit]
    have hvalue : value [b] = digitVal b := by simp [value]
    have hfits : toUnsigned false (digitVal b) = (digitVal b, true) := by
      have hb := b.toNat_lt
      have hlt : digitVal b < 2 ^ 64 := by
        unfold digitVal
        omega
      rw [toUnsigned, if_pos hlt, if_neg Bool.false_ne_true]
    rw [if_pos hdigit, hdrop]
    dsimp only
    rw [numeral_of_isDigit [] hdigit]
    simp [hdigit, hvalue, hfits]
  · rw [if_neg hdigit]
    dsimp only
    split_ifs with hnil hds
    · rfl
    · rfl
    · -- there is a digit only if the byte is one
      exfalso
      obtain ⟨d, hd⟩ := List.exists_mem_of_ne_nil _ hds
      have hall := isDigit_numeral _ d hd
      have hlen := length_numeral ([b].dropWhile isSpace)
      have hdrop : [b].dropWhile isSpace = [b] := by
        by_contra hne
        have hspace : isSpace b = true := by
          by_contra hs
          exact hne (by simp [hs])
        exact hnil (by simp [hspace])
      rw [hdrop] at hd hlen
      unfold numeral at hd
      split at hd
      · next heq =>
        obtain rfl := (List.cons.inj heq).2
        cases hd
      · next heq =>
        obtain rfl := (List.cons.inj heq).2
        cases hd
      · obtain rfl : d = b := List.mem_singleton.mp (List.takeWhile_prefix _ |>.subset hd)
        exact hdigit hall

/-- From a message of one byte no string is read whose length is that byte, other than the empty
one. -/
theorem eq_nil_of_loadStr_byte {b : UInt8} {str : List UInt8} {s' : IStream}
    (h : loadStr ample (ofBytes [b]) = .done str s') (hb : UInt8.ofNat str.length = b) : str = [] := by
  have hlen : str.length = ((ofBytes [b]).extractUnsigned 0).1 := by
    obtain ⟨s1, -, hcopy, -⟩ := loadStr_eq_done h
    exact length_copyN hcopy
  rw [extractUnsigned_byte] at hlen
  by_cases hdigit : isDigit b = true
  · exfalso
    rw [if_pos hdigit] at hlen
    have hmod : str.length % 2 ^ 8 = b.toNat := (UInt8.ofNat_eq_iff_mod_eq_toNat _ _).mp hb
    simp only [isDigit, Bool.and_eq_true, decide_eq_true_eq] at hdigit
    unfold digitVal at hlen
    omega
  · rw [if_neg hdigit] at hlen
    exact List.length_eq_zero_iff.mp hlen

/-- **The receiver reads a document without empty strings from its message exactly if it is the empty
dictionary.** -/
theorem getDhtQuery_makeMessage_iff (doc : Node) (hdoc : emptyStrings doc = 0) :
    (∃ n s, getDhtQuery n (makeMessage doc).data = .done doc s) ↔ doc = .dict [] := by
  constructor
  · rintro ⟨n, s, h⟩
    rw [makeMessage_data] at h
    have hnil : ∀ doc, getDhtQuery n [] = .done doc s → doc = .dict [] := by
      intro doc h
      have hmono := loadNode_mono (Nat.le_add_right n 2) (s := ofBytes []) (by
        change getDhtQuery n [] ≠ .timeout
        rw [h]
        exact fun hc => by cases hc)
      change getDhtQuery (n + 2) [] = getDhtQuery n [] at hmono
      rw [getDhtQuery_nil, h] at hmono
      cases hmono
      rfl
    cases doc with
    | str str =>
      dsimp only at h
      split_ifs at h
      · have hread := loadStr_of_loadNode h
        have hstr : str = [] := eq_nil_of_loadStr_byte hread rfl
        rw [hstr] at hdoc
        cases hdoc
      · exact hnil _ h
    | _ => exact hnil _ h
  · rintro rfl
    refine ⟨2, ⟨[], true, true⟩, ?_⟩
    rw [makeMessage_data]
    exact getDhtQuery_nil 0

end CppTorrent.Dht.NodeClient
