import CppTorrent.Bencode.RoundTrip

/-! # When the bencode reader halts

The list and the dictionary loop stop only at `peek() == 'e'`. On a stream that is not good `peek`
never sees a byte, `LoadStr` returns the empty string and `LoadNode` the empty dictionary, so a loop
entered or continued there runs for ever (`loadArrayLoop_stuck`, `loadDictLoop_stuck`).

`closes` decides from the text whether that happens. It scans the text token by token with a stack of
the containers that are open: the strings and the numbers as `LoadStr` and `LoadNumber` delimit them,
`'l'` and `'d'` (and `0xFF`) opening a container, `'e'` closing one. It answers `true` when the last
container is closed, or when `LoadStr` throws because a length is too large or there is no memory for
it. It answers `false` when the stream has run out or failed while a container is open, and when what
the reader does is undefined: a string reaches past the end of the text, or the text ends before a
number. A scan step takes a byte or spoils the stream, so a scan of `text.length + 2` steps is always
enough (`scan_enough`). -/

namespace CppTorrent.Bencode.Halting

open CppTorrent.Lib.Decimal CppTorrent.Lib.Stream CppTorrent.Lib.Stream.IStream
open CppTorrent.Lib.OrderedMap
open CppTorrent.Bencode.Serialize CppTorrent.Bencode.Deserialize CppTorrent.Bencode.RoundTrip

/-! ### The scan -/

/-- A container that has been opened. -/
inductive Open where
  | array
  | dict
  deriving DecidableEq

section Scan

variable (mem : Memory)

/-- Goes on after a token; an exception ends the reading at once. -/
def resume {α : Type} (x : Outcome α) (k : IStream → Bool) : Bool :=
  match x with
  | .timeout => false
  | .thrown => true
  | .undefined => false
  | .done _ s => k s

/-- Scans the beginning of a value and goes on with the containers open after it. -/
def scanNode (k : List Open → IStream → Bool) (stack : List Open) (s : IStream) : Bool :=
  let (c, s) := s.peek
  if c = some 105 then resume (loadNumber s) (k stack)
  else if c = some 108 then k (.array :: stack) s.get
  else if c = some 100 ∨ c = some 255 then k (.dict :: stack) s.get
  else if c = none then k stack s.peek.2
  else resume (loadStr mem s) (k stack)

/-- Scans on from the head of the loop of the innermost open container. -/
def scan : ℕ → List Open → IStream → Bool
  | _, [], _ => true
  | 0, _ :: _, _ => false
  | n + 1, o :: stack, s =>
    let (c, s) := s.peek
    if c = some 101 then scan n stack s.get
    else if s.good = true then
      match o with
      | .array => scanNode mem (scan n) (.array :: stack) s
      | .dict => resume (loadStr mem s) (scanNode mem (scan n) (.dict :: stack))
    else false

/-- **Every container is closed before the text ends or a read fails**, or the length of a string throws
before that. -/
def closes (text : List UInt8) : Bool := scanNode mem (scan mem (text.length + 2)) [] (ofBytes text)

end Scan

variable {mem : Memory}

/-! ### Streams that are not good -/

theorem loadStr_not_good {s : IStream} (h : s.good = false) : loadStr mem s = .done [] s.fail := by
  have h1 : s.extractUnsigned 0 = (0, s.fail) := extract_of_not_good _ _ _ h
  have h2 : s.fail.get = s.fail := by rw [get_of_not_good (good_fail s)]; rfl
  unfold loadStr
  simp only [h1, reserves_zero, if_true, h2, copyN_zero]

theorem loadNode_not_good {s : IStream} (h : s.good = false) (n : ℕ) :
    loadNode mem n s = .timeout ∨ loadNode mem n s = .done (.dict []) s.fail := by
  rcases n with _ | _ | n
  · exact Or.inl rfl
  · left
    rw [loadNode, peek_of_not_good h]; rfl
  · right
    rw [loadNode, peek_of_not_good h]
    simp only [reduceCtorEq, if_false, or_true, if_true]
    rw [loadDict, peek_of_not_good (good_fail s)]
    rfl

/-- **A list loop that finds its stream not good never ends.** -/
theorem loadArrayLoop_stuck : ∀ (n : ℕ) (a : List Node) (s : IStream), s.peek.2.good = false →
    loadArrayLoop mem n a s = .timeout
  | 0, _, _, _ => rfl
  | n + 1, a, s, h => by
    rw [loadArrayLoop]
    simp only [peek_none_of_not_good h, reduceCtorEq, if_false]
    rcases loadNode_not_good h n with h1 | h1
    · rw [h1]; rfl
    · rw [h1, Outcome.bind_done]
      exact loadArrayLoop_stuck n _ _ (good_peek_fail _)

/-- **A dictionary loop that finds its stream not good never ends.** -/
theorem loadDictLoop_stuck : ∀ (n : ℕ) (d : List (List UInt8 × Node)) (s : IStream),
    s.peek.2.good = false → loadDictLoop mem n d s = .timeout
  | 0, _, _, _ => rfl
  | n + 1, d, s, h => by
    rw [loadDictLoop]
    simp only [peek_none_of_not_good h, reduceCtorEq, if_false]
    rw [loadStr_not_good h, Outcome.bind_done]
    rcases loadNode_not_good (good_fail s.peek.2) n with h1 | h1
    · rw [h1]; rfl
    · rw [h1, Outcome.bind_done]
      exact loadDictLoop_stuck n _ _ (good_peek_fail _)

theorem loadArray_eq {n : ℕ} {s : IStream} (h : loadArray mem n s ≠ .timeout) :
    loadArray mem n s = loadArrayLoop mem n [] s.get := by
  cases n with
  | zero => exact absurd rfl h
  | succ n => rw [loadArray] at h ⊢; exact (loadArrayLoop_mono (Nat.le_succ n) h).symm

theorem loadDict_eq {n : ℕ} {s : IStream} (h : loadDict mem n s ≠ .timeout) :
    loadDict mem n s =
      if s.peek.1 = none then .done (.dict []) s.peek.2 else loadDictLoop mem n [] s.peek.2.get := by
  cases n with
  | zero => exact absurd rfl h
  | succ n =>
    rw [loadDict] at h ⊢
    simp only at h ⊢
    split_ifs at h ⊢
    · rfl
    · exact (loadDictLoop_mono (Nat.le_succ n) h).symm

/-! ### A reader that halts has its containers closed -/

/-- Some number of scan steps finds the open containers closed. -/
def Closes (mem : Memory) (stack : List Open) (s : IStream) : Prop := ∃ n, scan mem n stack s = true

/-- The same, from the beginning of a value. -/
def ClosesNode (mem : Memory) (stack : List Open) (s : IStream) : Prop :=
  ∃ n, scanNode mem (scan mem n) stack s = true

theorem resume_closes {α : Type} {x : Outcome α} {stack : List Open} (hx : x.Halts)
    (h : ∀ a s, x = .done a s → Closes mem stack s) : ∃ n, resume x (scan mem n stack) = true := by
  cases x with
  | timeout => exact absurd hx not_false
  | thrown => exact ⟨0, rfl⟩
  | undefined => exact absurd hx not_false
  | done a s => exact h a s rfl

theorem closes_end {o : Open} {stack : List Open} {s : IStream} (hc : s.peek.1 = some 101)
    (h : Closes mem stack s.peek.2.get) : Closes mem (o :: stack) s := by
  obtain ⟨n, hn⟩ := h
  refine ⟨n + 1, ?_⟩
  rw [scan]
  simp only [if_pos hc, hn]

theorem closes_array {stack : List Open} {s : IStream} (hc : s.peek.1 ≠ some 101)
    (hg : s.peek.2.good = true) (h : ClosesNode mem (.array :: stack) s.peek.2) :
    Closes mem (.array :: stack) s := by
  obtain ⟨n, hn⟩ := h
  refine ⟨n + 1, ?_⟩
  rw [scan]
  simp only [if_neg hc, if_pos hg, hn]

theorem closes_dict {stack : List Open} {s : IStream} (hc : s.peek.1 ≠ some 101)
    (hg : s.peek.2.good = true) {n : ℕ}
    (h : resume (loadStr mem s.peek.2) (scanNode mem (scan mem n) (.dict :: stack)) = true) :
    Closes mem (.dict :: stack) s := by
  refine ⟨n + 1, ?_⟩
  rw [scan]
  simp only [if_neg hc, if_pos hg, h]

/-- **A reader that has stopped leaves the containers around it as the scan does.** The induction is
on the steps of the reader; `stack` are the containers around the value it reads. -/
theorem closes_of_load : ∀ n : ℕ,
    (∀ s stack, (loadNode mem n s).Halts →
      (∀ v s', loadNode mem n s = .done v s' → Closes mem stack s') → ClosesNode mem stack s) ∧
    (∀ d s stack, (loadDictLoop mem n d s).Halts →
      (∀ v s', loadDictLoop mem n d s = .done v s' → Closes mem stack s') → Closes mem (.dict :: stack) s) ∧
    (∀ a s stack, (loadArrayLoop mem n a s).Halts →
      (∀ v s', loadArrayLoop mem n a s = .done v s' → Closes mem stack s') → Closes mem (.array :: stack) s)
  | 0 => by simp [loadNode, loadDictLoop, loadArrayLoop, Outcome.Halts]
  | n + 1 => by
    obtain ⟨hN, hDL, hAL⟩ := closes_of_load n
    refine ⟨fun s stack h k => ?_, fun d s stack h k => ?_, fun a s stack h k => ?_⟩
    · rw [loadNode] at h k
      unfold ClosesNode scanNode
      simp only at h k ⊢
      by_cases h1 : s.peek.1 = some 105
      · simp only [if_pos h1] at h k ⊢
        exact resume_closes h k
      by_cases h2 : s.peek.1 = some 108
      · simp only [if_neg h1, if_pos h2] at h k ⊢
        have he := loadArray_eq h.ne_timeout
        rw [he] at h k
        exact hAL _ _ _ h k
      by_cases h3 : s.peek.1 = some 100 ∨ s.peek.1 = some 255
      · have hn : s.peek.1 ≠ none := by rcases h3 with h3 | h3 <;> simp [h3]
        simp only [if_neg h1, if_neg h2, if_pos h3, ← or_assoc, if_pos (Or.inl h3)] at h k ⊢
        have he := loadDict_eq h.ne_timeout
        rw [peek_peek_fst, if_neg hn, peek_of_some hn, peek_of_some hn] at he
        rw [peek_of_some hn] at h k ⊢
        rw [he] at h k
        exact hDL _ _ _ h k
      by_cases h4 : s.peek.1 = none
      · simp only [if_neg h1, if_neg h2, if_neg h3, ← or_assoc, if_pos (Or.inr h4), if_pos h4]
          at h k ⊢
        rw [loadDict_eq h.ne_timeout, peek_peek_fst, if_pos h4] at k
        exact k _ _ rfl
      · simp only [if_neg h1, if_neg h2, if_neg h3, ← or_assoc, if_neg (not_or.mpr ⟨h3, h4⟩),
          if_neg h4] at h k ⊢
        exact resume_closes h.of_bind fun str s' hs => k _ s' (by rw [hs]; rfl)
    · have hg : s.peek.2.good = true := by
        by_contra hb
        exact h.ne_timeout (loadDictLoop_stuck _ _ _ (by simpa using hb))
      rw [loadDictLoop] at h k
      simp only at h k
      split_ifs at h k with hc
      · exact closes_end hc (k _ _ rfl)
      · cases hs : loadStr mem s.peek.2 with
        | timeout => rw [hs] at h; exact absurd h not_false
        | undefined => rw [hs] at h; exact absurd h not_false
        | thrown => exact closes_dict (n := 0) hc hg (by rw [hs]; rfl)
        | done key s1 =>
          rw [hs, Outcome.bind_done] at h k
          obtain ⟨m, hm⟩ := hN s1 (.dict :: stack) h.of_bind fun v s2 hv => by
            rw [hv, Outcome.bind_done] at h k
            exact hDL _ _ _ h k
          exact closes_dict (n := m) hc hg (by rw [hs]; exact hm)
    · have hg : s.peek.2.good = true := by
        by_contra hb
        exact h.ne_timeout (loadArrayLoop_stuck _ _ _ (by simpa using hb))
      rw [loadArrayLoop] at h k
      simp only at h k
      split_ifs at h k with hc
      · exact closes_end hc (k _ _ rfl)
      · refine closes_array hc hg (hN _ _ h.of_bind fun v s1 hv => ?_)
        rw [hv, Outcome.bind_done] at h k
        exact hAL _ _ _ h k

/-! ### Closed containers make the reader halt -/

/-- The loops of the open containers, run one after the other from `s`, all come to an end, or one
of them throws. -/
def Runs (mem : Memory) : List Open → IStream → Prop
  | [], _ => True
  | .array :: stack, s => ∀ a, ∃ n, (loadArrayLoop mem n a s).Halts ∧
      ∀ v s', loadArrayLoop mem n a s = .done v s' → Runs mem stack s'
  | .dict :: stack, s => ∀ d, ∃ n, (loadDictLoop mem n d s).Halts ∧
      ∀ v s', loadDictLoop mem n d s = .done v s' → Runs mem stack s'

/-- The same, from the beginning of a value. -/
def RunsNode (mem : Memory) (stack : List Open) (s : IStream) : Prop :=
  ∃ n, (loadNode mem n s).Halts ∧ ∀ v s', loadNode mem n s = .done v s' → Runs mem stack s'

theorem runs_resume {α : Type} {x : Outcome α} {k : IStream → Bool} {stack : List Open}
    (hk : ∀ s, k s = true → Runs mem stack s) (h : resume x k = true) :
    x.Halts ∧ ∀ a s, x = .done a s → Runs mem stack s := by
  cases x with
  | timeout => simp [resume] at h
  | thrown => simp [Outcome.Halts]
  | undefined => simp [resume] at h
  | done a s =>
    refine ⟨trivial, fun a' s' he => ?_⟩
    cases he
    exact hk s h

theorem runsNode_of_scanNode {k : List Open → IStream → Bool} {stack : List Open} {s : IStream}
    (hk : ∀ stack s, k stack s = true → Runs mem stack s) (h : scanNode mem k stack s = true) :
    RunsNode mem stack s := by
  unfold scanNode at h
  simp only at h
  by_cases h1 : s.peek.1 = some 105
  · rw [if_pos h1] at h
    refine ⟨1, ?_⟩
    rw [loadNode]
    simp only [if_pos h1]
    exact runs_resume (hk stack) h
  rw [if_neg h1] at h
  by_cases h2 : s.peek.1 = some 108
  · rw [if_pos h2] at h
    obtain ⟨n, hn⟩ := hk _ _ h []
    refine ⟨n + 2, ?_⟩
    rw [loadNode]
    simp only [if_neg h1, if_pos h2]
    rw [loadArray]
    exact hn
  rw [if_neg h2] at h
  by_cases h3 : s.peek.1 = some 100 ∨ s.peek.1 = some 255
  · have hn : s.peek.1 ≠ none := by rcases h3 with h3 | h3 <;> simp [h3]
    rw [if_pos h3, peek_of_some hn] at h
    obtain ⟨n, hr⟩ := hk _ _ h []
    refine ⟨n + 2, ?_⟩
    rw [loadNode]
    simp only [if_neg h1, if_neg h2, ← or_assoc, if_pos (Or.inl h3)]
    rw [loadDict]
    simp only [if_neg hn, peek_of_some hn]
    exact hr
  rw [if_neg h3] at h
  by_cases h4 : s.peek.1 = none
  · rw [if_pos h4] at h
    refine ⟨2, ?_⟩
    rw [loadNode]
    simp only [if_neg h1, if_neg h2, ← or_assoc, if_pos (Or.inr h4)]
    rw [loadDict]
    simp only [peek_peek_fst, if_pos h4]
    refine ⟨trivial, fun v s' he => ?_⟩
    cases he
    exact hk _ _ h
  · rw [if_neg h4] at h
    obtain ⟨hs, hr⟩ := runs_resume (hk stack) h
    refine ⟨1, ?_⟩
    rw [loadNode]
    simp only [if_neg h1, if_neg h2, ← or_assoc, if_neg (not_or.mpr ⟨h3, h4⟩)]
    cases hl : loadStr mem s.peek.2 with
    | timeout => rw [hl] at hs; exact absurd hs not_false
    | undefined => rw [hl] at hs; exact absurd hs not_false
    | thrown => exact ⟨trivial, by simp [Outcome.map]⟩
    | done str s1 =>
      refine ⟨trivial, fun v s' he => ?_⟩
      cases he
      exact hr _ _ hl

/-- A round of the list loop after which the loop comes to an end. -/
theorem runs_array {stack : List Open} {s : IStream} (hc : s.peek.1 ≠ some 101)
    (h : RunsNode mem (.array :: stack) s.peek.2) : Runs mem (.array :: stack) s := by
  obtain ⟨n1, ht, hr⟩ := h
  intro a
  cases hv : loadNode mem n1 s.peek.2 with
  | timeout => rw [hv] at ht; exact absurd ht not_false
  | undefined => rw [hv] at ht; exact absurd ht not_false
  | thrown =>
    refine ⟨n1 + 1, ?_⟩
    rw [loadArrayLoop]
    simp only [if_neg hc, hv, Outcome.bind_thrown]
    simp [Outcome.Halts]
  | done v s1 =>
    obtain ⟨n2, ht2, hr2⟩ := hr _ _ hv (a ++ [v])
    refine ⟨max n1 n2 + 1, ?_⟩
    rw [loadArrayLoop]
    simp only [if_neg hc]
    rw [loadNode_mono (le_max_left n1 n2) ht.ne_timeout, hv, Outcome.bind_done,
      loadArrayLoop_mono (le_max_right n1 n2) ht2.ne_timeout]
    exact ⟨ht2, hr2⟩

/-- A round of the dictionary loop after which the loop comes to an end. -/
theorem runs_dict {stack : List Open} {s s0 : IStream} {key : List UInt8}
    (hc : s.peek.1 ≠ some 101) (hk : loadStr mem s.peek.2 = .done key s0)
    (h : RunsNode mem (.dict :: stack) s0) : Runs mem (.dict :: stack) s := by
  obtain ⟨n1, ht, hr⟩ := h
  intro d
  cases hv : loadNode mem n1 s0 with
  | timeout => rw [hv] at ht; exact absurd ht not_false
  | undefined => rw [hv] at ht; exact absurd ht not_false
  | thrown =>
    refine ⟨n1 + 1, ?_⟩
    rw [loadDictLoop]
    simp only [if_neg hc, hk, Outcome.bind_done, hv, Outcome.bind_thrown]
    simp [Outcome.Halts]
  | done v s1 =>
    obtain ⟨n2, ht2, hr2⟩ := hr _ _ hv (emplace key v d)
    refine ⟨max n1 n2 + 1, ?_⟩
    rw [loadDictLoop]
    simp only [if_neg hc, hk, Outcome.bind_done]
    rw [loadNode_mono (le_max_left n1 n2) ht.ne_timeout, hv, Outcome.bind_done,
      loadDictLoop_mono (le_max_right n1 n2) ht2.ne_timeout]
    exact ⟨ht2, hr2⟩

/-- **If the scan finds the open containers closed, their loops come to an end.** -/
theorem runs_of_scan : ∀ (n : ℕ) (stack : List Open) (s : IStream),
    scan mem n stack s = true → Runs mem stack s
  | _, [], _, _ => trivial
  | 0, _ :: _, _, h => by simp [scan] at h
  | n + 1, o :: stack, s, h => by
    have ih := runs_of_scan n
    rw [scan] at h
    simp only at h
    by_cases hc : s.peek.1 = some 101
    · rw [if_pos hc] at h
      have hr := ih _ _ h
      cases o with
      | array =>
        intro a
        refine ⟨1, ?_⟩
        rw [loadArrayLoop]
        simp only [if_pos hc]
        exact ⟨trivial, fun v s' he => by cases he; exact hr⟩
      | dict =>
        intro d
        refine ⟨1, ?_⟩
        rw [loadDictLoop]
        simp only [if_pos hc]
        exact ⟨trivial, fun v s' he => by cases he; exact hr⟩
    · rw [if_neg hc] at h
      split_ifs at h with hg
      cases o with
      | array => exact runs_array hc (runsNode_of_scanNode ih h)
      | dict =>
        cases hs : loadStr mem s.peek.2 with
        | timeout => simp [hs, resume] at h
        | undefined => simp [hs, resume] at h
        | thrown =>
          intro d
          refine ⟨1, ?_⟩
          rw [loadDictLoop]
          simp only [if_neg hc, hs, Outcome.bind_thrown]
          simp [Outcome.Halts]
        | done key s1 =>
          simp only [hs, resume] at h
          exact runs_dict hc hs (runsNode_of_scanNode ih h)

/-! ### A bound on the scan -/

/-- A string read from a good stream uses up room. -/
theorem loadStr_room {s s' : IStream} {str : List UInt8} (h : loadStr mem s = .done str s') :
    s'.room ≤ s.room ∧ (s.good = true → s'.room < s.room) := by
  obtain ⟨s1, -, hcopy, rfl⟩ := loadStr_eq_done h
  have h1 := room_get s1
  have h2 := room_copyN hcopy
  have h3 := room_get (s.extractUnsigned 0).2
  have h4 : (s.extractUnsigned 0).2.room ≤ s.room := room_extract _ _ _ _
  refine ⟨by omega, fun hg => ?_⟩
  have h5 : (s.extractUnsigned 0).2.room < s.room := room_extract_lt hg
  omega

/-- A number uses up room. -/
theorem loadNumber_room {s s' : IStream} {v : Node} (h : loadNumber s = .done v s') :
    s'.room ≤ s.room ∧ (s.good = true → s.buf ≠ [] → s'.room < s.room) := by
  obtain ⟨-, -, -, rfl⟩ := loadNumber_eq_done h
  have h1 := room_get s.get.extractSigned.2
  have h2 : s.get.extractSigned.2.room ≤ s.get.room := room_extract _ _ _ _
  have h3 := room_get s
  refine ⟨by omega, fun hg hb => ?_⟩
  have h4 := room_get_lt hg hb
  omega

theorem resume_imp {α : Type} {x : Outcome α} {k k' : IStream → Bool}
    (hk : ∀ a s, x = .done a s → k s = true → k' s = true) (h : resume x k = true) :
    resume x k' = true := by
  cases x with
  | timeout => exact h
  | thrown => rfl
  | undefined => exact h
  | done a s => exact hk a s rfl h

/-- The continuation of `scanNode` is run with no more room than the value had, and with less if
there was a byte to read. -/
theorem scanNode_imp {k k' : List Open → IStream → Bool} {stack : List Open} {s : IStream}
    (hk : ∀ stack' s', s'.room ≤ s.room → (s.good = true → s.buf ≠ [] → s'.room < s.room) →
      k stack' s' = true → k' stack' s' = true)
    (h : scanNode mem k stack s = true) : scanNode mem k' stack s = true := by
  unfold scanNode at h ⊢
  simp only at h ⊢
  by_cases hn : s.peek.1 = none
  · simp only [hn, reduceCtorEq, if_false, or_self, if_true] at h ⊢
    refine hk _ _ (le_trans (room_peek _) (room_peek s)) (fun hg hb => ?_) h
    obtain ⟨b, t, ht⟩ := List.exists_cons_of_ne_nil hb
    simp [peek, hg, ht] at hn
  · rw [peek_of_some hn] at h ⊢
    split_ifs at h ⊢
    · refine resume_imp (fun v s' hv hs => ?_) h
      obtain ⟨h1, h2⟩ := loadNumber_room hv
      exact hk _ _ h1 h2 hs
    · exact hk _ _ (room_get s) room_get_lt h
    · exact hk _ _ (room_get s) room_get_lt h
    · refine resume_imp (fun v s' hv hs => ?_) h
      obtain ⟨h1, h2⟩ := loadStr_room hv
      exact hk _ _ h1 (fun hg _ => h2 hg) hs

/-- **A scan needs no more steps than its stream has room.** -/
theorem scan_enough : ∀ (n : ℕ) (stack : List Open) (s : IStream), scan mem n stack s = true →
    ∀ m, s.room < m → scan mem m stack s = true
  | _, [], _, _, m, _ => by cases m <;> rfl
  | 0, _ :: _, _, h, _, _ => by simp [scan] at h
  | n + 1, o :: stack, s, h, m, hm => by
    have ih := scan_enough n
    obtain ⟨m, rfl⟩ : ∃ m', m = m' + 1 := ⟨m - 1, by omega⟩
    rw [scan] at h ⊢
    simp only at h ⊢
    have hp := room_peek s
    by_cases hc : s.peek.1 = some 101
    · have hs : s.peek.2 = s := peek_of_some (by rw [hc]; simp)
      rw [if_pos hc, hs] at h ⊢
      have hg : s.good = true := by
        by_contra hb
        rw [peek_of_not_good (by simpa using hb)] at hc
        simp at hc
      have hb : s.buf ≠ [] := hs ▸ buf_ne_nil_of_good_peek (hs.symm ▸ hg)
      have := room_get_lt hg hb
      exact ih _ _ h m (by omega)
    · rw [if_neg hc] at h ⊢
      split_ifs at h ⊢ with hg
      have hb := buf_ne_nil_of_good_peek hg
      cases o with
      | array =>
        refine scanNode_imp (fun stack' s' _ hlt hs => ih _ _ hs m ?_) h
        have := hlt hg hb
        omega
      | dict =>
        refine resume_imp (fun key s1 hk hs => ?_) h
        have h1 := (loadStr_room hk).2 hg
        refine scanNode_imp (fun stack' s' hle _ hs => ih _ _ hs m ?_) hs
        omega

/-- **`LoadNode` halts on a text exactly if every container it opens is closed before the text ends
or a read fails**, or the length of a string throws before that, whatever memory there is. -/
theorem loadNode_halts_iff (mem : Memory) (text : List UInt8) :
    (∃ n, (loadNode mem n (ofBytes text)).Halts) ↔ closes mem text = true := by
  constructor
  · rintro ⟨n, hn⟩
    obtain ⟨m, hm⟩ := (closes_of_load n).1 (ofBytes text) [] hn fun _ s' _ => ⟨0, by rw [scan]⟩
    refine scanNode_imp (fun stack s' hle _ hs => scan_enough m stack s' hs _ ?_) hm
    rw [room_ofBytes] at hle
    omega
  · intro h
    obtain ⟨n, hn, -⟩ := runsNode_of_scanNode (runs_of_scan _) h
    exact ⟨n, hn⟩

/-- The text `l` is a list that is never closed, and `LoadNode` does not halt on it. -/
theorem not_halts_open_list : ¬ ∃ n, (loadNode ample n (ofBytes [108])).Halts := by
  rintro ⟨n, hn⟩
  rcases n with _ | _ | n
  · exact hn
  · exact hn
  · refine hn.ne_timeout ?_
    rw [loadNode]
    simp only [peek_cons, Option.some.injEq, if_true]
    rw [if_neg (by decide), loadArray, get_cons]
    exact loadArrayLoop_stuck n [] _ rfl

end CppTorrent.Bencode.Halting
