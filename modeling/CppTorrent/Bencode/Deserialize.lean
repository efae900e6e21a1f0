import CppTorrent.Bencode.Serialize
import CppTorrent.Lib.Stream

/-! # Reading bencode

The readers of `bencode::Deserialize`, under the source's names. The list and the dictionary loop
run until `peek` sees `'e'`, so a reader need not stop: each takes a bound on its steps and reports
`timeout` when the bound is reached. A reader that has stopped gives the same result under every
larger bound (`loadNode_mono`). `LoadStr` throws if the length it has read is above `max_size`, or if
there is no memory for it; copying a string that reaches past the end of the text is undefined, and so
is returning a number that has not been read.

`c = input.peek()` stores the byte in a (signed) `char`, so the byte `0xFF` is taken for the
end-of-file value by the `switch` of `LoadNode`, but not by the test in `LoadDict`.

What is read is a value of the type: `loadNode_wf`. -/

namespace CppTorrent.Bencode.Deserialize

open CppTorrent.Lib.Stream CppTorrent.Lib.OrderedMap CppTorrent.Bencode.Serialize

/-- Whether there is memory for a string, by what the stream still has and by the length. No two
strings that are not empty are read at the same place, so this may be different for each of them. -/
abbrev Memory : Type := IStream → ℕ → Bool

/-- Memory for every string. -/
def ample : Memory := fun _ _ => true

section Readers

variable (mem : Memory)

/-- Whether `reserve` returns; an empty string needs no memory. -/
def reserves (s : IStream) (n : ℕ) : Bool := decide (n ≤ maxSize) && (n == 0 || mem s n)

/-- `Deserialize::LoadStr`. -/
def loadStr (s : IStream) : Outcome (List UInt8) :=
  let (strSize, s) := s.extractUnsigned 0
  if reserves mem s strSize then
    match s.get.copyN strSize with
    | none => .undefined
    | some (str, s) => .done str s.get
  else .thrown

/-- `Deserialize::LoadNumber`. -/
def loadNumber (s : IStream) : Outcome Node :=
  match s.get.extractSigned with
  | (none, _) => .undefined
  | (some number, s) => .done (.number number) s.get

mutual

/-- `Deserialize::LoadNode`. -/
def loadNode : ℕ → IStream → Outcome Node
  | 0, _ => .timeout
  | n + 1, s =>
    let (c, s) := s.peek
    if c = some 105 then loadNumber s
    else if c = some 108 then loadArray n s
    else if c = some 100 ∨ c = some 255 ∨ c = none then loadDict n s
    else (loadStr mem s).map .str

/-- `Deserialize::LoadDict`. -/
def loadDict : ℕ → IStream → Outcome Node
  | 0, _ => .timeout
  | n + 1, s =>
    let (c, s) := s.peek
    if c = none then .done (.dict []) s else loadDictLoop n [] s.get

/-- The loop of `LoadDict`. -/
def loadDictLoop : ℕ → List (List UInt8 × Node) → IStream → Outcome Node
  | 0, _, _ => .timeout
  | n + 1, dict, s =>
    let (c, s) := s.peek
    if c = some 101 then .done (.dict dict) s.get
    else (loadStr mem s).bind fun key s =>
      (loadNode n s).bind fun v s => loadDictLoop n (emplace key v dict) s

/-- `Deserialize::LoadArray`. -/
def loadArray : ℕ → IStream → Outcome Node
  | 0, _ => .timeout
  | n + 1, s => loadArrayLoop n [] s.get

/-- The loop of `LoadArray`. -/
def loadArrayLoop : ℕ → List Node → IStream → Outcome Node
  | 0, _, _ => .timeout
  | n + 1, arr, s =>
    let (c, s) := s.peek
    if c = some 101 then .done (.list arr) s.get
    else (loadNode n s).bind fun v s => loadArrayLoop n (arr ++ [v]) s

end

end Readers

variable {mem : Memory}

/-! ### Enough steps -/

/-- One more step changes no result. -/
theorem step_mono : ∀ n : ℕ,
    (∀ s, loadNode mem n s ≠ .timeout → loadNode mem (n + 1) s = loadNode mem n s) ∧
    (∀ s, loadDict mem n s ≠ .timeout → loadDict mem (n + 1) s = loadDict mem n s) ∧
    (∀ d s, loadDictLoop mem n d s ≠ .timeout → loadDictLoop mem (n + 1) d s = loadDictLoop mem n d s) ∧
    (∀ s, loadArray mem n s ≠ .timeout → loadArray mem (n + 1) s = loadArray mem n s) ∧
    (∀ a s, loadArrayLoop mem n a s ≠ .timeout → loadArrayLoop mem (n + 1) a s = loadArrayLoop mem n a s)
  | 0 => by simp [loadNode, loadDict, loadDictLoop, loadArray, loadArrayLoop]
  | n + 1 => by
    obtain ⟨hN, hD, hDL, hA, hAL⟩ := step_mono n
    refine ⟨fun s h => ?_, fun s h => ?_, fun d s h => ?_, fun s h => ?_, fun a s h => ?_⟩
    · rw [loadNode] at h
      rw [loadNode, loadNode]
      simp only at h ⊢
      split_ifs at h ⊢
      · rfl
      · exact hA _ h
      · exact hD _ h
      · rfl
    · rw [loadDict] at h
      rw [loadDict, loadDict]
      simp only at h ⊢
      split_ifs at h ⊢
      · rfl
      · exact hDL _ _ h
    · rw [loadDictLoop] at h
      rw [loadDictLoop, loadDictLoop]
      simp only at h ⊢
      split_ifs at h ⊢
      · rfl
      · exact Outcome.bind_mono (fun _ => rfl)
          (fun key s1 => Outcome.bind_mono (hN s1) fun v s2 => hDL _ s2) h
    · rw [loadArray] at h
      rw [loadArray, loadArray]
      exact hAL _ _ h
    · rw [loadArrayLoop] at h
      rw [loadArrayLoop, loadArrayLoop]
      simp only at h ⊢
      split_ifs at h ⊢
      · rfl
      · exact Outcome.bind_mono (hN _) (fun v s1 => hAL _ s1) h

section Mono

variable {m n : ℕ} (hmn : m ≤ n)

include hmn

theorem loadNode_mono {s : IStream} (h : loadNode mem m s ≠ .timeout) :
    loadNode mem n s = loadNode mem m s := by
  induction hmn with
  | refl => rfl
  | step _ ih => rw [(step_mono _).1 s (by rw [ih]; exact h), ih]

theorem loadDictLoop_mono {d : List (List UInt8 × Node)} {s : IStream}
    (h : loadDictLoop mem m d s ≠ .timeout) : loadDictLoop mem n d s = loadDictLoop mem m d s := by
  induction hmn with
  | refl => rfl
  | step _ ih => rw [(step_mono _).2.2.1 d s (by rw [ih]; exact h), ih]

theorem loadArrayLoop_mono {a : List Node} {s : IStream}
    (h : loadArrayLoop mem m a s ≠ .timeout) : loadArrayLoop mem n a s = loadArrayLoop mem m a s := by
  induction hmn with
  | refl => rfl
  | step _ ih => rw [(step_mono _).2.2.2.2 a s (by rw [ih]; exact h), ih]

end Mono

/-! ### What is read is a value -/

theorem reserves_le {s : IStream} {n : ℕ} (h : reserves mem s n = true) : n ≤ maxSize := by
  simp only [reserves, Bool.and_eq_true, decide_eq_true_eq] at h
  exact h.1

theorem reserves_zero (s : IStream) : reserves mem s 0 = true := rfl

/-- A string that has been read: its length, and its bytes behind the colon. -/
theorem loadStr_eq_done {s s' : IStream} {str : List UInt8} (h : loadStr mem s = .done str s') :
    ∃ s1, reserves mem (s.extractUnsigned 0).2 (s.extractUnsigned 0).1 = true ∧
      (s.extractUnsigned 0).2.get.copyN (s.extractUnsigned 0).1 = some (str, s1) ∧ s1.get = s' := by
  unfold loadStr at h
  dsimp only at h
  split_ifs at h with hmem
  split at h
  · cases h
  · next str' s1 hcopy =>
    cases h
    exact ⟨s1, hmem, hcopy, rfl⟩

/-- A number that has been read. -/
theorem loadNumber_eq_done {s s' : IStream} {v : Node} (h : loadNumber s = .done v s') :
    ∃ number, s.get.extractSigned.1 = some number ∧ v = .number number ∧
      s.get.extractSigned.2.get = s' := by
  unfold loadNumber at h
  split at h
  · cases h
  · next number s1 hextract =>
    cases h
    rw [hextract]
    exact ⟨number, rfl, rfl, rfl⟩

theorem loadStr_length {s s' : IStream} {str : List UInt8} (h : loadStr mem s = .done str s') :
    str.length ≤ maxSize := by
  obtain ⟨s1, hmem, hcopy, -⟩ := loadStr_eq_done h
  rw [IStream.length_copyN hcopy]
  exact reserves_le hmem

theorem toSigned_range (neg : Bool) (n : ℕ) :
    -2 ^ 63 ≤ (IStream.toSigned neg n).1 ∧ (IStream.toSigned neg n).1 < 2 ^ 63 := by
  unfold IStream.toSigned
  split_ifs <;> constructor <;> simp only <;> omega

theorem extractSigned_range {s : IStream} {number : ℤ} (h : s.extractSigned.1 = some number) :
    -2 ^ 63 ≤ number ∧ number < 2 ^ 63 := by
  unfold IStream.extractSigned IStream.extract at h
  dsimp only at h
  split_ifs at h
  · obtain rfl := Option.some.inj h
    decide
  · obtain rfl := Option.some.inj h
    exact toSigned_range _ _

theorem loadNumber_wf {s s' : IStream} {v : Node} (h : loadNumber s = .done v s') : WF v := by
  obtain ⟨number, hread, rfl, -⟩ := loadNumber_eq_done h
  exact extractSigned_range hread

/-- **What the reader returns is a value of the type**: numbers in range, strings no longer than
`max_size`, keys ascending. -/
theorem load_wf : ∀ n : ℕ,
    (∀ s v s', loadNode mem n s = .done v s' → WF v) ∧
    (∀ s v s', loadDict mem n s = .done v s' → WF v) ∧
    (∀ d s v s', Ascending d → WFEntries d → loadDictLoop mem n d s = .done v s' → WF v) ∧
    (∀ s v s', loadArray mem n s = .done v s' → WF v) ∧
    (∀ a s v s', WFElems a → loadArrayLoop mem n a s = .done v s' → WF v)
  | 0 => by simp [loadNode, loadDict, loadDictLoop, loadArray, loadArrayLoop]
  | n + 1 => by
    obtain ⟨hN, hD, hDL, hA, hAL⟩ := load_wf n
    have hnil : Ascending ([] : List (List UInt8 × Node)) := List.Pairwise.nil
    refine ⟨fun s v s' h => ?_, fun s v s' h => ?_, fun d s v s' ha hd h => ?_,
      fun s v s' h => ?_, fun a s v s' ha h => ?_⟩
    · rw [loadNode] at h
      simp only at h
      split_ifs at h
      · exact loadNumber_wf h
      · exact hA _ _ _ h
      · exact hD _ _ _ h
      · obtain ⟨str, hs, rfl⟩ := Outcome.map_eq_done h
        exact loadStr_length hs
    · rw [loadDict] at h
      simp only at h
      split_ifs at h
      · simp only [Outcome.done.injEq] at h
        obtain ⟨rfl, -⟩ := h
        exact ⟨hnil, trivial⟩
      · exact hDL _ _ _ _ hnil trivial h
    · rw [loadDictLoop] at h
      simp only at h
      split_ifs at h
      · simp only [Outcome.done.injEq] at h
        obtain ⟨rfl, -⟩ := h
        exact ⟨ha, hd⟩
      · obtain ⟨k, s1, hk, h⟩ := Outcome.bind_eq_done h
        obtain ⟨v1, s2, hv1, h⟩ := Outcome.bind_eq_done h
        exact hDL _ _ _ _ (ascending_emplace k v1 ha)
          (wfEntries_emplace hd (loadStr_length hk) (hN _ _ _ hv1)) h
    · rw [loadArray] at h
      exact hAL [] _ _ _ trivial h
    · rw [loadArrayLoop] at h
      simp only at h
      split_ifs at h
      · simp only [Outcome.done.injEq] at h
        obtain ⟨rfl, -⟩ := h
        exact ha
      · obtain ⟨v1, s1, hv1, h⟩ := Outcome.bind_eq_done h
        exact hAL (a ++ [v1]) _ _ _ (wfElems_append.mpr ⟨ha, hN _ _ _ hv1, trivial⟩) h

theorem loadNode_wf {n : ℕ} {s s' : IStream} {v : Node} (h : loadNode mem n s = .done v s') : WF v :=
  (load_wf n).1 s v s' h

end CppTorrent.Bencode.Deserialize
