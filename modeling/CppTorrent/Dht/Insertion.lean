import CppTorrent.Dht.Unique

/-! # What an insertion loses

`InsertNode` may clear dead nodes from a bucket, split the last bucket and try twice to add the node.
No live node is lost or doubled by that (`live_insertNode`), the new one gets in where its bucket has
room or can make some (`stores_of_room`), dead nodes only disappear, and nothing happens outside the
bucket of the node and the one that a split creates (`bucket_insertNode`). All of it is read off the
nodes that an insertion leaves (`Unique.perm_nodes_insertNode`). -/

namespace CppTorrent.Dht.Insertion

open CppTorrent.Dht.Guid CppTorrent.Dht.Table CppTorrent.Dht.Table.RouteTable
open CppTorrent.Dht.Placement CppTorrent.Dht.Unique

/-- The live nodes of a table. -/
def live (alive : Node → Bool) (t : RouteTable) : List Node := (nodes t).filter alive

/-- Its dead nodes. -/
def dead (alive : Node → Bool) (t : RouteTable) : List Node := (nodes t).filter fun x => !alive x

/-- The index of the bucket of a node. -/
def target (t : RouteTable) (n : Node) : ℕ := (t.findBucket n.id).1

/-- The bucket of a node has room for another one, or holds a dead one. -/
def HasRoom (alive : Node → Bool) (t : RouteTable) (n : Node) : Prop :=
  (t.bucket (target t n)).length < kBucketsDeep ∨ ∃ x ∈ t.bucket (target t n), alive x = false

variable {alive : Node → Bool} {t : RouteTable} {n : Node}

/-- `AddNode` leaves the live nodes of a bucket. -/
theorem filter_kept (alive : Node → Bool) (b : Kbucket) :
    (kept alive b).filter alive = b.filter alive := by
  unfold kept
  split_ifs
  · rfl
  · rw [List.filter_filter]
    exact List.filter_congr fun x _ => Bool.and_self _

/-- So an insertion leaves the live nodes of the table. -/
theorem live_remaining (alive : Node → Bool) (t : RouteTable) (n : Node) :
    ((remaining alive alive t n).filter alive).Perm (live alive t) := by
  have hperm := (perm_nodes (findBucket_lt t n.id)).symm.filter alive
  rw [nodes_findBucket, List.filter_append] at hperm
  refine List.Perm.trans ?_ hperm
  unfold remaining
  generalize t.findBucket n.id = found
  obtain ⟨i, t⟩ := found
  dsimp only
  split_ifs
  · have hparts := (perm_parts t i (kept alive (t.bucket i))).filter alive
    rw [List.filter_append, filter_kept] at hparts
    rw [List.filter_append, List.filter_append, filter_kept]
    exact hparts.append_right _
  · rw [List.filter_append, filter_kept]

/-- **No live node is lost or doubled.** -/
theorem live_insertNode (hn : alive n = true) :
    (Stores alive alive t n ∧ (live alive (t.insertNode alive alive n)).Perm (n :: live alive t)) ∨
      (¬ Stores alive alive t n ∧ (live alive (t.insertNode alive alive n)).Perm (live alive t)) := by
  have hleft := live_remaining alive t n
  rcases perm_nodes_insertNode alive alive t n with ⟨hstores, hperm⟩ | ⟨hstores, hperm⟩
  · refine Or.inl ⟨hstores, (hperm.filter alive).trans ?_⟩
    rw [List.filter_cons_of_pos hn]
    exact hleft.cons n
  · exact Or.inr ⟨hstores, (hperm.filter alive).trans hleft⟩

/-- Dead nodes only disappear. -/
theorem dead_insertNode (hn : alive n = true) :
    (dead alive (t.insertNode alive alive n)).Subperm (dead alive t) := by
  have hleft := (remaining_subperm alive alive t n).filter fun x => !alive x
  rcases perm_nodes_insertNode alive alive t n with ⟨-, hperm⟩ | ⟨-, hperm⟩
  · have hdead := hperm.filter fun x => !alive x
    rw [List.filter_cons_of_neg (by simp [hn])] at hdead
    exact hdead.subperm.trans hleft
  · exact (hperm.filter _).subperm.trans hleft

/-- The table that `FindBucket` leaves has the same buckets, an empty one apart. -/
theorem bucket_findBucket (t : RouteTable) (id : GUID) (i : ℕ) :
    (t.findBucket id).2.bucket i = t.bucket i := by
  unfold findBucket
  by_cases hlen : t.buckets.length = 0
  · rw [if_pos hlen]
    unfold bucket
    rw [List.length_eq_zero_iff.mp hlen]
    cases i <;> rfl
  · rw [if_neg hlen]

theorem length_bucket_le (hdeep : ∀ b ∈ t.buckets, b.length ≤ kBucketsDeep) (i : ℕ) :
    (t.bucket i).length ≤ kBucketsDeep := by
  unfold bucket
  rw [List.getD_eq_getElem?_getD]
  cases hi : t.buckets[i]? with
  | none => exact Nat.zero_le _
  | some b => exact hdeep b (List.mem_of_getElem? hi)

/-- **A node gets in where there is room for it.** -/
theorem stores_of_room (hdeep : ∀ b ∈ t.buckets, b.length ≤ kBucketsDeep)
    (hroom : HasRoom alive t n) : Stores alive alive t n := by
  have hle := length_bucket_le hdeep (target t n)
  unfold Stores
  dsimp only
  rw [bucket_findBucket]
  refine Or.inl ?_
  change (kept alive (t.bucket (target t n))).length < kBucketsDeep
  rcases hroom with hlt | ⟨x, hx, hdead⟩
  · exact lt_of_le_of_lt (kept_sublist alive _).length_le hlt
  · unfold kept
    split_ifs with hlt
    · exact hlt
    · have hfilter : ((t.bucket (target t n)).filter alive).length <
          (t.bucket (target t n)).length :=
        List.length_filter_lt_length_iff_exists.mpr ⟨x, hx, by simp [hdead]⟩
      omega

/-- **The frame of an insertion**: the buckets other than the one of the node and a new last one. -/
theorem bucket_insertNode (alive : Node → Bool) (t : RouteTable) (n : Node) :
    (t.insertNode alive alive n).buckets.length ≤ (t.findBucket n.id).2.buckets.length + 1 ∧
      ∀ j, j ≠ target t n → j ≠ (t.findBucket n.id).2.buckets.length →
        (t.insertNode alive alive n).buckets[j]? = t.buckets[j]? := by
  rcases List.eq_nil_or_concat t.buckets with h | ⟨pre, last, h⟩
  · rw [insertNode_of_nil h, h]
    simp only [target, findBucket, h, List.length_nil, if_true, List.length_singleton]
    refine ⟨by omega, fun j _ hj => ?_⟩
    rw [List.getElem?_eq_none (by simp; omega), List.getElem?_nil]
  · rw [List.concat_eq_append] at h
    have hlen : t.buckets.length = pre.length + 1 := by
      rw [h, List.length_append, List.length_singleton]
    unfold target
    rw [findBucket_of_concat h]
    dsimp only
    by_cases hs : pre.length ≤ commonPrefix t.master n.id ∧ pre.length + 1 < sha1SizeBits - 1 ∧
        kBucketsDeep ≤ (last.filter alive).length
    · -- the last bucket is split, and the new one stands behind it
      obtain ⟨hc, hm, hfull⟩ := hs
      rw [insertNode_of_split h hc hm hfull, min_eq_right hc, hlen]
      refine ⟨by simp, fun j hj hnew => ?_⟩
      dsimp only
      rcases Nat.lt_or_ge j pre.length with hlt | hge
      · rw [h, List.getElem?_append_left hlt, List.getElem?_append_left hlt]
      · rw [List.getElem?_eq_none (by simp; omega), List.getElem?_eq_none (by omega)]
    · rw [insertNode_of_not_split h hs]
      unfold setBucket
      rw [List.length_set]
      refine ⟨Nat.le_succ _, fun j hj _ => ?_⟩
      exact List.getElem?_set_ne (Ne.symm hj)

/-- **An insertion loses no live node.** -/
theorem insertNode_keeps (alive : Node → Bool) (t : RouteTable)
    (hdeep : ∀ b ∈ t.buckets, b.length ≤ kBucketsDeep) (n : Node) (hn : alive n = true) :
    ((live alive (t.insertNode alive alive n)).Perm (live alive t) ∨
        (live alive (t.insertNode alive alive n)).Perm (n :: live alive t)) ∧
      (HasRoom alive t n → (live alive (t.insertNode alive alive n)).Perm (n :: live alive t)) ∧
      (dead alive (t.insertNode alive alive n)).Subperm (dead alive t) ∧
      (t.insertNode alive alive n).buckets.length ≤ (t.findBucket n.id).2.buckets.length + 1 ∧
      ∀ j, j ≠ target t n → j ≠ (t.findBucket n.id).2.buckets.length →
        (t.insertNode alive alive n).buckets[j]? = t.buckets[j]? := by
  obtain ⟨hcount, hframe⟩ := bucket_insertNode alive t n
  refine ⟨?_, fun hroom => ?_, dead_insertNode hn, hcount, hframe⟩
  · rcases live_insertNode hn with ⟨-, hperm⟩ | ⟨-, hperm⟩
    · exact Or.inr hperm
    · exact Or.inl hperm
  · rcases live_insertNode hn with ⟨-, hperm⟩ | ⟨hnot, -⟩
    · exact hperm
    · exact absurd (stores_of_room hdeep hroom) hnot

/-- A table with one dead node. -/
theorem insertNode_keeps_dead :
    (live (fun x => x.object == 1) (insertNode (fun x => x.object == 1) (fun x => x.object == 1)
      ⟨0, [[⟨1, 0⟩]]⟩ ⟨2, 1⟩)).Perm [⟨2, 1⟩] :=
  (insertNode_keeps (fun x => x.object == 1) ⟨0, [[⟨1, 0⟩]]⟩ (by decide) ⟨2, 1⟩ rfl).2.1
    (Or.inr ⟨⟨1, 0⟩, by decide +kernel, rfl⟩)

end CppTorrent.Dht.Insertion
