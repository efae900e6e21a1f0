import CppTorrent.Dht.Table

/-! # Where the nodes of the route table are

`Placed` says that every node is in the bucket that `FindBucket` gives for it. Every operation keeps
this, with one exception (`placed_insertNode_iff`): an insertion that splits the last bucket adds the
node to the old bucket, also if the split has made the new bucket the right one for it. -/

namespace CppTorrent.Dht.Placement

open CppTorrent.Lib.Runs CppTorrent.Dht.Guid CppTorrent.Dht.Table CppTorrent.Dht.Table.RouteTable

/-- Every node in bucket `j` has `j = min (c, m - 1)`, for the length `c` of the prefix it shares with
the master and the number `m` of buckets. -/
def Placed (t : RouteTable) : Prop :=
  ∀ j b, t.buckets[j]? = some b →
    ∀ x ∈ b, j = min (commonPrefix t.master x.id) (t.buckets.length - 1)

/-- The insertion of `n` splits the last bucket, the node belongs to the new bucket, and the old one
has room after the split, or a node that has died by then. -/
def Overflows (alive alive' : Node → Bool) (t : RouteTable) (n : Node) : Prop :=
  ∃ last, t.buckets.getLast? = some last ∧ t.buckets.length < sha1SizeBits - 1 ∧
    t.buckets.length ≤ commonPrefix t.master n.id ∧
    kBucketsDeep ≤ (last.filter alive).length ∧
    (((last.filter alive).filter fun x =>
      commonPrefix t.master x.id = t.buckets.length - 1).filter alive').length < kBucketsDeep

/-! ### Buckets -/

theorem mem_addNode {alive : Node → Bool} {n x : Node} {b : Kbucket}
    (h : x ∈ (addNode alive n b).2) : x = n ∨ x ∈ b := by
  unfold addNode updateNodes at h
  simp only at h
  split_ifs at h
  · simpa [or_comm] using h
  · simp only [List.mem_append, List.mem_filter, List.mem_singleton] at h
    tauto
  · exact Or.inr (List.mem_filter.mp h).1

theorem addNode_fst_eq_false {alive : Node → Bool} {n : Node} {b : Kbucket} :
    (addNode alive n b).1 = false ↔ kBucketsDeep ≤ (b.filter alive).length := by
  have hle := List.length_filter_le alive b
  unfold addNode updateNodes
  simp only
  split_ifs with h1 h2
  · simp; omega
  · simpa using h2
  · simpa using h2

theorem addNode_of_full {alive : Node → Bool} {n : Node} {b : Kbucket}
    (h : kBucketsDeep ≤ (b.filter alive).length) : addNode alive n b = (false, b.filter alive) := by
  have hle := List.length_filter_le alive b
  unfold addNode updateNodes
  simp only
  rw [if_neg (by omega), if_neg (by omega)]

/-- A node is added where there is room, or a dead node. -/
theorem mem_addNode_self {alive : Node → Bool} {n : Node} {b : Kbucket}
    (h : (b.filter alive).length < kBucketsDeep) : n ∈ (addNode alive n b).2 := by
  unfold addNode updateNodes
  simp only
  split_ifs
  · exact List.mem_concat_self
  · exact List.mem_concat_self

theorem placed_setBucket {t : RouteTable} (ht : Placed t) {i : ℕ} {b : Kbucket}
    (hb : ∀ x ∈ b, i = min (commonPrefix t.master x.id) (t.buckets.length - 1)) :
    Placed (t.setBucket i b) := by
  intro j b' hj x hx
  simp only [setBucket, List.length_set] at hj ⊢
  rw [List.getElem?_set] at hj
  split_ifs at hj with hij hlt
  · simp only [Option.some.injEq] at hj
    subst hj hij
    exact hb x hx
  · exact ht j b' hj x hx

theorem eq_of_mem_bucket {t : RouteTable} (ht : Placed t) {i : ℕ} {x : Node} (hx : x ∈ t.bucket i) :
    i = min (commonPrefix t.master x.id) (t.buckets.length - 1) := by
  unfold bucket at hx
  rw [List.getD_eq_getElem?_getD] at hx
  cases hi : t.buckets[i]? with
  | none => simp [hi] at hx
  | some b =>
    rw [hi, Option.getD_some] at hx
    exact ht i b hi x hx

/-- Removing nodes from a bucket. -/
theorem placed_setBucket_subset {t : RouteTable} (ht : Placed t) {i : ℕ} {b : Kbucket}
    (hb : b ⊆ t.bucket i) : Placed (t.setBucket i b) :=
  placed_setBucket ht fun _ hx => eq_of_mem_bucket ht (hb hx)

/-! ### Insertion -/

section Insert

variable {alive alive' : Node → Bool} {t : RouteTable} {n : Node} {pre : List Kbucket}
  {last : Kbucket}

/-- The first insertion. -/
theorem insertNode_of_nil (h : t.buckets = []) :
    t.insertNode alive alive' n = { t with buckets := [[n]] } := by
  simp [insertNode, findBucket, bucket, setBucket, addNode, kBucketsDeep, h]

theorem findBucket_of_concat (h : t.buckets = pre ++ [last]) (id : GUID) :
    t.findBucket id = (min (commonPrefix t.master id) pre.length, t) := by
  have hlen : t.buckets.length ≠ 0 := by simp [h]
  unfold findBucket
  rw [if_neg hlen]
  simp only [prefixLength_eq, h, List.length_append, List.length_singleton, Nat.add_sub_cancel]

theorem bucket_of_concat (h : t.buckets = pre ++ [last]) : t.bucket pre.length = last := by
  simp [bucket, h]

/-- An insertion that does not split the last bucket. -/
theorem insertNode_of_not_split (h : t.buckets = pre ++ [last])
    (hs : ¬ (pre.length ≤ commonPrefix t.master n.id ∧ pre.length + 1 < sha1SizeBits - 1 ∧
      kBucketsDeep ≤ (last.filter alive).length)) :
    t.insertNode alive alive' n = t.setBucket (min (commonPrefix t.master n.id) pre.length)
      (addNode alive n (t.bucket (min (commonPrefix t.master n.id) pre.length))).2 := by
  set i := min (commonPrefix t.master n.id) pre.length with hi
  have hlen : (t.setBucket i (addNode alive n (t.bucket i)).2).buckets.length = pre.length + 1 := by
    simp [setBucket, h]
  unfold insertNode
  rw [findBucket_of_concat h, ← hi]
  simp only [hlen, Nat.add_sub_cancel]
  by_cases hadd : (addNode alive n (t.bucket i)).1 = false
  · by_cases hl : i = pre.length
    · -- the bucket is the last one and full, so there are too many buckets to split it
      have hfull := addNode_fst_eq_false.mp hadd
      rw [hl, bucket_of_concat h] at hfull
      have hm : ¬ pre.length + 1 < sha1SizeBits - 1 := fun hm => hs ⟨by omega, hm, hfull⟩
      have hsplit : (t.setBucket i (addNode alive n (t.bucket i)).2).tryToSplit =
          (false, t.setBucket i (addNode alive n (t.bucket i)).2) := by
        unfold tryToSplit
        split
        · rfl
        · rw [if_neg (by rw [hlen]; tauto)]
      rw [hsplit]
      simp
    · simp [hadd, hl]
  · simp [hadd]

/-- An insertion that splits the last bucket. -/
theorem insertNode_of_split (h : t.buckets = pre ++ [last])
    (hc : pre.length ≤ commonPrefix t.master n.id) (hm : pre.length + 1 < sha1SizeBits - 1)
    (hfull : kBucketsDeep ≤ (last.filter alive).length) :
    t.insertNode alive alive' n = { t with buckets := pre ++
      [(addNode alive' n ((last.filter alive).filter fun x =>
          commonPrefix t.master x.id = pre.length)).2,
        (last.filter alive).filter fun x => commonPrefix t.master x.id ≠ pre.length] } := by
  have hset : t.setBucket pre.length (last.filter alive) =
      { t with buckets := pre ++ [last.filter alive] } := by
    simp [setBucket, h, List.set_append_right]
  have hpos : 0 < (last.filter alive).length := lt_of_lt_of_le (by decide) hfull
  have hsplit : tryToSplit { t with buckets := pre ++ [last.filter alive] } =
      (true, { t with buckets := pre ++
        [(last.filter alive).filter fun x => commonPrefix t.master x.id = pre.length,
          (last.filter alive).filter fun x => commonPrefix t.master x.id ≠ pre.length] }) := by
    unfold tryToSplit
    simp only [List.getLast?_concat, List.length_append, List.length_singleton]
    rw [if_pos ⟨hm, hpos⟩]
    simp only [splitTheBucket, prefixLength_eq, commonPrefix_comm _ t.master, Nat.add_sub_cancel,
      List.dropLast_concat]
  unfold insertNode
  rw [findBucket_of_concat h, min_eq_right hc]
  simp only [bucket_of_concat h, addNode_of_full hfull, hset, hsplit, List.length_append,
    List.length_singleton, Nat.add_sub_cancel, BEq.rfl, Bool.not_false, Bool.and_self, if_true]
  simp only [setBucket, bucket, List.set_append_right _ _ le_rfl, Nat.sub_self, List.set_cons_zero,
    List.getD_eq_getElem?_getD, List.getElem?_append_right le_rfl, List.getElem?_cons_zero,
    Option.getD_some]

/-- The nodes of a bucket that is split are placed; the node inserted is placed if the old bucket is
still the right one for it, or has no room for it and no node that has died. -/
theorem placed_split_iff (ht : Placed t) (h : t.buckets = pre ++ [last])
    (hc : pre.length ≤ commonPrefix t.master n.id) :
    Placed { t with buckets := pre ++
      [(addNode alive' n ((last.filter alive).filter fun x =>
          commonPrefix t.master x.id = pre.length)).2,
        (last.filter alive).filter fun x => commonPrefix t.master x.id ≠ pre.length] } ↔
      ¬ (pre.length < commonPrefix t.master n.id ∧ (((last.filter alive).filter fun x =>
        commonPrefix t.master x.id = pre.length).filter alive').length < kBucketsDeep) := by
  set stay := (last.filter alive).filter fun x => commonPrefix t.master x.id = pre.length with hstay
  have hlen : t.buckets.length - 1 = pre.length := by simp [h]
  have hlast : ∀ x ∈ last, pre.length ≤ commonPrefix t.master x.id := fun x hx => by
    have := ht pre.length last (by simp [h]) x hx
    omega
  constructor
  · rintro hp ⟨hlt, hroom⟩
    have := hp pre.length (addNode alive' n stay).2 (by simp) n (mem_addNode_self hroom)
    simp only [List.length_append, List.length_cons, List.length_nil] at this
    omega
  · intro hno j b hj x hx
    simp only [List.length_append, List.length_cons, List.length_nil]
    rcases lt_trichotomy j pre.length with hlt | rfl | hgt
    · have hjt : t.buckets[j]? = some b := by
        rw [List.getElem?_append_left hlt] at hj
        rw [h, List.getElem?_append_left hlt, hj]
      have := ht j b hjt x hx
      omega
    · obtain rfl : (addNode alive' n stay).2 = b := by simpa using hj
      by_cases hroom : (stay.filter alive').length < kBucketsDeep
      · rcases mem_addNode hx with rfl | hx
        · omega
        · simp only [hstay, List.mem_filter, decide_eq_true_eq] at hx
          omega
      · rw [addNode_of_full (not_lt.mp hroom)] at hx
        simp only [hstay, List.mem_filter, decide_eq_true_eq] at hx
        omega
    · obtain ⟨k, rfl⟩ : ∃ k, j = pre.length + 1 + k := ⟨j - pre.length - 1, by omega⟩
      cases k with
      | succ k => simp [Nat.add_assoc] at hj
      | zero =>
        rw [List.getElem?_append_right (by omega)] at hj
        simp only [Nat.add_zero, Nat.add_sub_cancel_left, List.getElem?_cons_succ,
          List.getElem?_cons_zero, Option.some.injEq] at hj
        subst hj
        simp only [List.mem_filter, decide_eq_true_eq] at hx
        have := hlast x hx.1.1
        omega

end Insert

/-- **An insertion keeps the nodes placed exactly if it does not overflow.** -/
theorem placed_insertNode_iff {alive alive' : Node → Bool} {t : RouteTable} {n : Node} (ht : Placed t) :
    Placed (t.insertNode alive alive' n) ↔ ¬ Overflows alive alive' t n := by
  rcases List.eq_nil_or_concat t.buckets with h | ⟨pre, last, h⟩
  · rw [insertNode_of_nil h]
    refine iff_of_true (fun j b hj x _ => ?_) ?_
    · obtain ⟨rfl, -⟩ : j = 0 ∧ b = [n] := by
        cases j with
        | zero => simpa [eq_comm] using hj
        | succ j => simp at hj
      simp
    · rintro ⟨last, hlast, -⟩
      simp [h] at hlast
  · rw [List.concat_eq_append] at h
    have hover : Overflows alive alive' t n ↔ (pre.length ≤ commonPrefix t.master n.id ∧
        pre.length + 1 < sha1SizeBits - 1 ∧ kBucketsDeep ≤ (last.filter alive).length) ∧
        pre.length < commonPrefix t.master n.id ∧ (((last.filter alive).filter fun x =>
          commonPrefix t.master x.id = pre.length).filter alive').length < kBucketsDeep := by
      simp only [Overflows, h, List.getLast?_concat, Option.some.injEq, exists_eq_left',
        List.length_append, List.length_singleton, Nat.add_sub_cancel]
      omega
    by_cases hs : pre.length ≤ commonPrefix t.master n.id ∧ pre.length + 1 < sha1SizeBits - 1 ∧
        kBucketsDeep ≤ (last.filter alive).length
    · rw [hover, and_iff_right hs, insertNode_of_split h hs.1 hs.2.1 hs.2.2]
      exact placed_split_iff ht h hs.1
    · rw [hover, insertNode_of_not_split h hs]
      refine iff_of_true (placed_setBucket ht fun x hx => ?_) (fun ho => hs ho.1)
      have hlen : t.buckets.length - 1 = pre.length := by simp [h]
      rw [hlen]
      rcases mem_addNode hx with rfl | hx
      · rfl
      · have := eq_of_mem_bucket ht hx
        rwa [hlen] at this

/-! ### Runs -/

theorem placed_findBucket {t : RouteTable} (ht : Placed t) (id : GUID) :
    Placed (t.findBucket id).2 := by
  unfold findBucket
  by_cases h : t.buckets.length = 0
  · intro j b hj x hx
    simp only [if_pos h] at hj
    cases j with
    | zero =>
      obtain rfl : [] = b := by simpa using hj
      simp at hx
    | succ j => simp at hj
  · simpa only [if_neg h] using ht

/-- The condition on a step: an insertion does not overflow. -/
def Careful (s : State) : Event → Prop
  | .insert n dying => ¬ Overflows s.alive (s.die dying).alive s.table n
  | _ => True

theorem placed_step_iff (s : State) (e : Event) (s' : State) (hp : Placed s.table)
    (h : step s e = some s') : Placed s'.table ↔ Careful s e := by
  cases e with
  | insert n dying =>
    cases h
    exact placed_insertNode_iff hp
  | kick id =>
    cases h
    refine iff_of_true ?_ trivial
    exact placed_setBucket_subset (placed_findBucket hp id) (List.eraseP_sublist.subset)
  | die object =>
    cases h
    exact iff_of_true hp trivial
  | update i =>
    cases h
    refine iff_of_true ?_ trivial
    exact placed_setBucket_subset hp (List.filter_sublist.subset)

/-- **A run keeps every node in its bucket, in every state it goes through, exactly if none of its
insertions overflows.** -/
theorem placed_throughout_iff (master : GUID) (es : List Event) :
    Throughout step (fun s => Placed s.table) (init master) es ↔
      Along step Careful (init master) es :=
  throughout_iff placed_step_iff fun j b hj => by simp [init] at hj

/-- With master 0, eight nodes fill the first bucket; the ninth splits it and is put back into it,
although seven of the eight nodes, and the ninth, belong to the new bucket. -/
theorem misplaced_after_split :
    ∃ s, run step (init 0) ([1, 2, 6, 10, 14, 18, 22, 26, 34].map fun id : ℕ =>
        .insert ⟨BitVec.ofNat _ id, id⟩ []) = some s ∧ ¬ Placed s.table := by
  refine ⟨_, rfl, fun h => ?_⟩
  have := h 0 [⟨1, 1⟩, ⟨34, 34⟩] (by decide +kernel) ⟨34, 34⟩ (by simp)
  revert this
  decide +kernel

end CppTorrent.Dht.Placement
