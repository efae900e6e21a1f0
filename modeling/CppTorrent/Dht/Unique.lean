import CppTorrent.Dht.Placement

/-! # Ids in the route table

`InsertNode` does not look whether a node with the same id is in the table already, and `KickNode`
erases the first node with the id in the one bucket that `FindBucket` gives. So an id is unique
exactly as long as no node is added while another one with its id stays, and a node is kicked exactly
if it is not in another bucket (`tidy_throughout_iff`). A node gets into another bucket when a bucket
is split during its insertion. -/

namespace CppTorrent.Dht.Unique

open CppTorrent.Lib.Runs CppTorrent.Dht.Guid CppTorrent.Dht.Table CppTorrent.Dht.Table.RouteTable
open CppTorrent.Dht.Placement

/-- The nodes of the table. -/
def nodes (t : RouteTable) : List Node := t.buckets.flatten

/-- The nodes outside the bucket at an index. -/
def others (t : RouteTable) (i : ℕ) : List Node := (t.buckets.eraseIdx i).flatten

/-- The nodes of a bucket that `AddNode` leaves. -/
def kept (alive : Node → Bool) (b : Kbucket) : Kbucket :=
  if b.length < kBucketsDeep then b else b.filter alive

/-- Whether an insertion splits the last bucket, at the index `i`: what `AddNode` has left of it is
full. -/
abbrev Splits (t : RouteTable) (i : ℕ) (b : Kbucket) : Prop :=
  i = t.buckets.length - 1 ∧ t.buckets.length < sha1SizeBits - 1 ∧ kBucketsDeep ≤ b.length

/-- The nodes of a bucket that stay in it when it is split. -/
def staying (t : RouteTable) (i : ℕ) (b : Kbucket) : Kbucket :=
  b.filter fun x => commonPrefix t.master x.id = i

/-- Its other nodes, which go into the new bucket. -/
def leaving (t : RouteTable) (i : ℕ) (b : Kbucket) : Kbucket :=
  b.filter fun x => commonPrefix t.master x.id ≠ i

/-- The nodes of the table that an insertion leaves. -/
def remaining (alive alive' : Node → Bool) (t : RouteTable) (n : Node) : List Node :=
  let (i, t) := t.findBucket n.id
  let b := kept alive (t.bucket i)
  let b := if Splits t i b then kept alive' (staying t i b) ++ leaving t i b else b
  b ++ others t i

/-- Whether an insertion finds room: in the bucket, or in what a split leaves of it. -/
def Stores (alive alive' : Node → Bool) (t : RouteTable) (n : Node) : Prop :=
  let (i, t) := t.findBucket n.id
  let b := kept alive (t.bucket i)
  b.length < kBucketsDeep ∨ (Splits t i b ∧ (kept alive' (staying t i b)).length < kBucketsDeep)

/-- No two nodes of the table have the same id. -/
def UniqueIds (t : RouteTable) : Prop := ((nodes t).map Node.id).Nodup

/-! ### A bucket and the others -/

theorem perm_nodes {t : RouteTable} {i : ℕ} (hi : i < t.buckets.length) :
    (nodes t).Perm (t.bucket i ++ others t i) := by
  have hperm : t.buckets.Perm (t.buckets[i] :: t.buckets.eraseIdx i) :=
    (List.getElem_cons_eraseIdx_perm hi).symm
  have hbucket : t.bucket i = t.buckets[i] := by
    unfold bucket
    rw [List.getD_eq_getElem?_getD, List.getElem?_eq_getElem hi, Option.getD_some]
  rw [hbucket]
  exact hperm.flatten

theorem perm_nodes_setBucket {t : RouteTable} {i : ℕ} (hi : i < t.buckets.length) (b : Kbucket) :
    (nodes (t.setBucket i b)).Perm (b ++ others t i) := by
  have hlen : i < (t.setBucket i b).buckets.length := by
    unfold setBucket
    rw [List.length_set]
    exact hi
  have hbucket : (t.setBucket i b).bucket i = b := by
    unfold bucket setBucket
    rw [List.getD_eq_getElem?_getD, List.getElem?_set_self hi, Option.getD_some]
  have hothers : others (t.setBucket i b) i = others t i := by
    unfold others setBucket
    rw [List.eraseIdx_set_eq]
  have hperm := perm_nodes hlen
  rwa [hbucket, hothers] at hperm

theorem findBucket_lt (t : RouteTable) (id : GUID) :
    (t.findBucket id).1 < (t.findBucket id).2.buckets.length := by
  unfold findBucket
  by_cases hlen : t.buckets.length = 0
  · rw [if_pos hlen]
    exact Nat.lt_of_le_of_lt (min_le_right _ _) Nat.zero_lt_one
  · rw [if_neg hlen]
    dsimp only
    omega

theorem nodes_findBucket (t : RouteTable) (id : GUID) : nodes (t.findBucket id).2 = nodes t := by
  unfold findBucket nodes
  by_cases hlen : t.buckets.length = 0
  · rw [if_pos hlen, List.length_eq_zero_iff.mp hlen]
    rfl
  · rw [if_neg hlen]

/-- `AddNode` in terms of the nodes it leaves. -/
theorem addNode_eq (alive : Node → Bool) (n : Node) (b : Kbucket) :
    addNode alive n b =
      if (kept alive b).length < kBucketsDeep then (true, kept alive b ++ [n])
      else (false, kept alive b) := by
  unfold addNode kept updateNodes
  by_cases hroom : b.length < kBucketsDeep
  · rw [if_pos hroom, if_pos hroom, if_pos hroom]
  · rw [if_neg hroom, if_neg hroom]

theorem kept_sublist (alive : Node → Bool) (b : Kbucket) : (kept alive b).Sublist b := by
  unfold kept
  split_ifs
  · exact List.Sublist.refl b
  · exact List.filter_sublist

theorem kept_of_full {alive : Node → Bool} {b : Kbucket} (h : kBucketsDeep ≤ (kept alive b).length) :
    kept alive b = b.filter alive := by
  have hle := (kept_sublist alive b).length_le
  unfold kept at *
  rw [if_neg (by omega)]

theorem le_filter_iff {alive : Node → Bool} {b : Kbucket} :
    kBucketsDeep ≤ (b.filter alive).length ↔ kBucketsDeep ≤ (kept alive b).length := by
  constructor
  · intro h
    have hle := List.length_filter_le alive b
    unfold kept
    rw [if_neg (by omega)]
    exact h
  · intro h
    rwa [kept_of_full h] at h

/-- The parts of a bucket that is split. -/
theorem perm_parts (t : RouteTable) (i : ℕ) (b : Kbucket) :
    (staying t i b ++ leaving t i b).Perm b := by
  unfold staying leaving
  have hsplit := List.filter_append_perm (fun x : Node => decide (commonPrefix t.master x.id = i)) b
  simpa only [decide_not] using hsplit

/-- The nodes an insertion leaves are nodes of the table. -/
theorem remaining_subperm (alive alive' : Node → Bool) (t : RouteTable) (n : Node) :
    (remaining alive alive' t n).Subperm (nodes t) := by
  have hperm := perm_nodes (findBucket_lt t n.id)
  rw [nodes_findBucket] at hperm
  refine List.Subperm.trans ?_ hperm.symm.subperm
  unfold remaining
  generalize t.findBucket n.id = found
  obtain ⟨i, t⟩ := found
  dsimp only
  split_ifs
  · set b := kept alive (t.bucket i)
    have hsub : (kept alive' (staying t i b) ++ leaving t i b ++ others t i).Sublist
        (staying t i b ++ leaving t i b ++ others t i) :=
      ((kept_sublist alive' _).append (List.Sublist.refl _)).append (List.Sublist.refl _)
    refine hsub.subperm.trans (((perm_parts t i b).append_right _).subperm.trans ?_)
    exact ((kept_sublist alive _).append (List.Sublist.refl _)).subperm
  · exact ((kept_sublist alive _).append (List.Sublist.refl _)).subperm

/-! ### Insertion -/

section Insert

variable {alive : Node → Bool} {t : RouteTable} {n : Node}

/-- An insertion that does not split a bucket. -/
theorem perm_nodes_addNode {i : ℕ} (hi : i < t.buckets.length) :
    (nodes (t.setBucket i (addNode alive n (t.bucket i)).2)).Perm
      (if (kept alive (t.bucket i)).length < kBucketsDeep then
        n :: (kept alive (t.bucket i) ++ others t i) else kept alive (t.bucket i) ++ others t i) := by
  refine (perm_nodes_setBucket hi _).trans ?_
  rw [addNode_eq]
  split_ifs with hroom
  · rw [List.append_assoc, List.singleton_append]
    exact List.perm_middle
  · exact List.Perm.refl _

/-- The nodes after an insertion that splits the last bucket. -/
theorem perm_nodes_split {pre : List Kbucket} {last : Kbucket} (h : t.buckets = pre ++ [last])
    (b new : Kbucket) :
    (nodes { t with buckets := pre ++ [b, new] }).Perm ((b ++ new) ++ others t pre.length) := by
  have hothers : others t pre.length = pre.flatten := by
    unfold others
    rw [h, List.eraseIdx_append_of_length_le le_rfl]
    simp
  unfold nodes
  rw [hothers, List.flatten_append, List.flatten_cons, List.flatten_cons, List.flatten_nil,
    List.append_nil]
  exact List.perm_append_comm

/-- **The nodes after an insertion.** -/
theorem perm_nodes_insertNode (alive alive' : Node → Bool) (t : RouteTable) (n : Node) :
    (Stores alive alive' t n ∧
        (nodes (t.insertNode alive alive' n)).Perm (n :: remaining alive alive' t n)) ∨
      (¬ Stores alive alive' t n ∧
        (nodes (t.insertNode alive alive' n)).Perm (remaining alive alive' t n)) := by
  rcases List.eq_nil_or_concat t.buckets with h | ⟨pre, last, h⟩
  · -- the first node
    left
    unfold Stores remaining
    simp only [findBucket, h, List.length_nil, if_true]
    have hkept : ∀ i, kept alive (bucket { t with buckets := [[]] } i) = [] := by
      intro i
      cases i <;> simp [bucket, kept]
    simp only [hkept]
    rw [if_neg (fun hs : Splits _ _ _ => absurd hs.2.2 (by decide)), insertNode_of_nil h]
    refine ⟨Or.inl (by decide), ?_⟩
    simp [nodes, others]
  · rw [List.concat_eq_append] at h
    have hlen : t.buckets.length = pre.length + 1 := by
      rw [h, List.length_append, List.length_singleton]
    set i := min (commonPrefix t.master n.id) pre.length with hidef
    have hi : i < t.buckets.length := by omega
    have hfind : t.findBucket n.id = (i, t) := findBucket_of_concat h n.id
    unfold Stores remaining
    rw [hfind]
    dsimp only
    by_cases hs : pre.length ≤ commonPrefix t.master n.id ∧ pre.length + 1 < sha1SizeBits - 1 ∧
        kBucketsDeep ≤ (last.filter alive).length
    · -- the last bucket is split
      obtain ⟨hc, hm, hfull⟩ := hs
      have hip : i = pre.length := by omega
      have hbucket : t.bucket i = last := by rw [hip, bucket_of_concat h]
      have hkept : kept alive last = last.filter alive := kept_of_full (le_filter_iff.mp hfull)
      have hsplits : Splits t i (last.filter alive) := ⟨by omega, by omega, hfull⟩
      rw [insertNode_of_split h hc hm hfull, hbucket, hkept, if_pos hsplits, and_iff_right hsplits,
        or_iff_right (not_lt.mpr hfull), hip]
      set stay := staying t pre.length (last.filter alive) with hstay
      have hnodes := perm_nodes_split h (addNode alive' n stay).2
        (leaving t pre.length (last.filter alive))
      by_cases hroom : (kept alive' stay).length < kBucketsDeep
      · refine Or.inl ⟨hroom, hnodes.trans ?_⟩
        rw [addNode_eq, if_pos hroom, List.append_assoc, List.append_assoc, List.append_assoc,
          List.singleton_append]
        exact List.perm_middle
      · refine Or.inr ⟨hroom, hnodes.trans ?_⟩
        rw [addNode_eq, if_neg hroom]
    · have hno : ¬ Splits t i (kept alive (t.bucket i)) := by
        rintro ⟨hlast, hm, hfull⟩
        have hip : i = pre.length := by omega
        rw [hip, bucket_of_concat h] at hfull
        exact hs ⟨by omega, by omega, le_filter_iff.mpr hfull⟩
      rw [insertNode_of_not_split h hs, ← hidef, if_neg hno]
      have hperm : (nodes (t.setBucket i (addNode alive n (t.bucket i)).2)).Perm
          (if (kept alive (t.bucket i)).length < kBucketsDeep then
            n :: (kept alive (t.bucket i) ++ others t i) else kept alive (t.bucket i) ++ others t i) :=
        perm_nodes_addNode hi
      by_cases hroom : (kept alive (t.bucket i)).length < kBucketsDeep
      · rw [if_pos hroom] at hperm
        exact Or.inl ⟨Or.inl hroom, hperm⟩
      · rw [if_neg hroom] at hperm
        refine Or.inr ⟨?_, hperm⟩
        rintro (hlt | ⟨hsplits, -⟩)
        · exact hroom hlt
        · exact hno hsplits

end Insert

/-- **An insertion keeps the ids unique exactly if it does not add a node whose id stays in the
table.** -/
theorem uniqueIds_insertNode_iff {alive alive' : Node → Bool} {t : RouteTable} {n : Node}
    (ht : UniqueIds t) :
    UniqueIds (t.insertNode alive alive' n) ↔
      (Stores alive alive' t n → ∀ x ∈ remaining alive alive' t n, x.id ≠ n.id) := by
  have hremaining : ((remaining alive alive' t n).map Node.id).Nodup := by
    obtain ⟨l, hperm, hsub⟩ := remaining_subperm alive alive' t n
    have hl : (l.map Node.id).Nodup := ht.sublist (hsub.map Node.id)
    exact ((hperm.map Node.id).nodup_iff).mp hl
  unfold UniqueIds
  rcases perm_nodes_insertNode alive alive' t n with ⟨hstores, hperm⟩ | ⟨hstores, hperm⟩
  · rw [(hperm.map Node.id).nodup_iff, List.map_cons, List.nodup_cons, and_iff_left hremaining]
    simp only [hstores, true_implies, List.mem_map, not_exists, not_and]
  · rw [(hperm.map Node.id).nodup_iff]
    exact iff_of_true hremaining fun h => absurd h hstores

/-! ### Removal -/

/-- The nodes with the id are in the bucket in which `KickNode` looks. -/
def Finds (t : RouteTable) (id : GUID) : Prop :=
  ∀ x ∈ others (t.findBucket id).2 (t.findBucket id).1, x.id ≠ id

theorem perm_nodes_kickNode (t : RouteTable) (id : GUID) :
    (nodes (t.kickNode id)).Perm (kick id ((t.findBucket id).2.bucket (t.findBucket id).1) ++
      others (t.findBucket id).2 (t.findBucket id).1) := by
  unfold kickNode
  exact perm_nodes_setBucket (findBucket_lt t id) _

theorem uniqueIds_kickNode {t : RouteTable} (ht : UniqueIds t) (id : GUID) :
    UniqueIds (t.kickNode id) := by
  have hperm := perm_nodes (findBucket_lt t id)
  rw [nodes_findBucket] at hperm
  unfold UniqueIds
  rw [((perm_nodes_kickNode t id).map Node.id).nodup_iff]
  have hall := ((hperm.map Node.id).nodup_iff).mp ht
  exact hall.sublist ((List.eraseP_sublist.append (List.Sublist.refl _)).map Node.id)

/-- Of a bucket with unique ids `Kick` leaves no node with the id. -/
theorem ne_of_mem_kick {b : Kbucket} {id : GUID} (hb : (b.map Node.id).Nodup) :
    ∀ x ∈ kick id b, x.id ≠ id := by
  induction b with
  | nil =>
    intro x hx
    cases hx
  | cons y b ih =>
    rw [List.map_cons, List.nodup_cons] at hb
    obtain ⟨hnot, hb⟩ := hb
    intro x hx
    by_cases hy : y.id = id
    · -- the node is erased, and it was the only one with the id
      have hkick : kick id (y :: b) = b := List.eraseP_cons_of_pos (by simpa using hy)
      rw [hkick] at hx
      rintro rfl
      exact hnot (hy ▸ List.mem_map_of_mem hx)
    · have hkick : kick id (y :: b) = y :: kick id b := List.eraseP_cons_of_neg (by simpa using hy)
      rw [hkick] at hx
      rcases List.mem_cons.mp hx with rfl | hx
      · exact hy
      · exact ih hb x hx

/-- **A kick removes the id exactly if the nodes with it are in the bucket where it looks.** -/
theorem kicked_iff {t : RouteTable} (ht : UniqueIds t) (id : GUID) :
    (∀ x ∈ nodes (t.kickNode id), x.id ≠ id) ↔ Finds t id := by
  have hmem : ∀ x, x ∈ nodes (t.kickNode id) ↔
      x ∈ kick id ((t.findBucket id).2.bucket (t.findBucket id).1) ∨
        x ∈ others (t.findBucket id).2 (t.findBucket id).1 := by
    intro x
    rw [(perm_nodes_kickNode t id).mem_iff, List.mem_append]
  constructor
  · intro h x hx
    exact h x ((hmem x).mpr (Or.inr hx))
  · intro h x hx
    rcases (hmem x).mp hx with hx | hx
    · -- the bucket has unique ids, since the table has
      have hperm := perm_nodes (findBucket_lt t id)
      rw [nodes_findBucket] at hperm
      have hall := ((hperm.map Node.id).nodup_iff).mp ht
      rw [List.map_append] at hall
      exact ne_of_mem_kick hall.of_append_left x hx
    · exact h x hx

/-- A node in the bucket that `FindBucket` gives for it is found. -/
theorem finds_of_placed {t : RouteTable} (ht : Placed t) (id : GUID) : Finds t id := by
  have hplaced : Placed (t.findBucket id).2 := placed_findBucket ht id
  have hindex : (t.findBucket id).1 = min (commonPrefix (t.findBucket id).2.master id)
      ((t.findBucket id).2.buckets.length - 1) := by
    unfold findBucket
    dsimp only
    rw [prefixLength_eq]
  unfold Finds
  generalize t.findBucket id = found at *
  obtain ⟨i, t⟩ := found
  dsimp only at hplaced hindex ⊢
  rintro x hx rfl
  obtain ⟨b, hb, hx⟩ := List.mem_flatten.mp hx
  obtain ⟨j, hne, hj⟩ := List.mem_eraseIdx_iff_getElem?.mp hb
  exact hne ((hplaced j b hj x hx).trans hindex.symm)

/-! ### Runs -/

/-- The state of the table and the id that the last operation has kicked, if it was a kick. -/
structure Kicks where
  state : State
  kicked : Option GUID

/-- The id an operation kicks. -/
def kickedBy : Event → Option GUID
  | .kick id => some id
  | _ => none

/-- One operation. -/
def kicksStep (s : Kicks) (e : Event) : Option Kicks :=
  (step s.state e).map fun state => ⟨state, kickedBy e⟩

/-- No id occurs twice, and the id just kicked does not occur. -/
def Tidy (s : Kicks) : Prop :=
  UniqueIds s.state.table ∧ ∀ id ∈ s.kicked, ∀ x ∈ nodes s.state.table, x.id ≠ id

/-- The condition on an operation: an insertion does not add a node while another one with its id
stays, and no node with the id that is kicked is outside the bucket that `FindBucket` gives. -/
def Distinct (s : Kicks) : Event → Prop
  | .insert n dying => Stores s.state.alive (s.state.die dying).alive s.state.table n →
      ∀ x ∈ remaining s.state.alive (s.state.die dying).alive s.state.table n, x.id ≠ n.id
  | .kick id => Finds s.state.table id
  | _ => True

theorem uniqueIds_setBucket {t : RouteTable} (ht : UniqueIds t) {i : ℕ} {b : Kbucket}
    (hb : b.Sublist (t.bucket i)) : UniqueIds (t.setBucket i b) := by
  by_cases hi : i < t.buckets.length
  · unfold UniqueIds
    rw [((perm_nodes_setBucket hi b).map Node.id).nodup_iff]
    have hall := (((perm_nodes hi).map Node.id).nodup_iff).mp ht
    exact hall.sublist ((hb.append (List.Sublist.refl _)).map Node.id)
  · unfold setBucket
    rwa [List.set_eq_of_length_le (not_lt.mp hi)]

/-- **An operation on a tidy table leaves it tidy exactly under the condition.** -/
theorem tidy_step_iff (s : Kicks) (e : Event) (s' : Kicks) (ht : Tidy s)
    (h : kicksStep s e = some s') : Tidy s' ↔ Distinct s e := by
  obtain ⟨state, hstep, rfl⟩ := Option.map_eq_some_iff.mp h
  cases e with
  | insert n dying =>
    cases hstep
    rw [Tidy, and_iff_left (fun id hid => by cases hid)]
    exact uniqueIds_insertNode_iff ht.1
  | kick id =>
    cases hstep
    rw [Tidy, and_iff_right (uniqueIds_kickNode ht.1 id), ← show _ ↔ Distinct s (.kick id) from
      kicked_iff ht.1 id]
    constructor
    · intro hk
      exact hk id rfl
    · intro hk id' hid
      cases hid
      exact hk
  | die object =>
    cases hstep
    exact iff_of_true ⟨ht.1, fun id hid => by cases hid⟩ trivial
  | update i =>
    cases hstep
    refine iff_of_true ⟨?_, fun id hid => by cases hid⟩ trivial
    exact uniqueIds_setBucket ht.1 List.filter_sublist

/-- A new table, before any operation. -/
def start (master : GUID) : Kicks := ⟨init master, none⟩

theorem tidy_start (master : GUID) : Tidy (start master) :=
  ⟨List.nodup_nil, fun id hid => by cases hid⟩

/-- **In every state of a run no id occurs twice, and an id just kicked does not occur, exactly if
every operation of the run meets the condition.** -/
theorem tidy_throughout_iff (master : GUID) (es : List Event) :
    Throughout kicksStep Tidy (start master) es ↔ Along kicksStep Distinct (start master) es :=
  throughout_iff tidy_step_iff (tidy_start master)

/-- An insertion that puts the node into its bucket, of an id that is not in the table. -/
def Fresh (s : Kicks) : Event → Prop
  | .insert n dying => Careful s.state (.insert n dying) ∧ ∀ x ∈ nodes s.state.table, x.id ≠ n.id
  | _ => True

/-- A run that inserts only new ids and never overflows a bucket stays tidy: its kicks find the nodes
where they are. -/
theorem tidy_run {master : GUID} {es : List Event} {s : Kicks}
    (h : run kicksStep (start master) es = some s) (hfresh : Along kicksStep Fresh (start master) es) :
    Tidy s := by
  have hinv : Tidy s ∧ Placed s.state.table := by
    refine invariant_of_run (fun s => Tidy s ∧ Placed s.state.table) Fresh ?_
      ⟨tidy_start master, fun j b hj => by cases hj⟩ hfresh h
    rintro s e s' ⟨ht, hp⟩ hc hstep
    have hdistinct : Distinct s e := by
      cases e with
      | insert n dying => exact fun _ x hx => hc.2 x ((remaining_subperm _ _ _ _).subset hx)
      | kick id => exact finds_of_placed hp id
      | die object => exact trivial
      | update i => exact trivial
    have hcareful : Careful s.state e := by
      cases e with
      | insert n dying => exact hc.1
      | kick id => exact trivial
      | die object => exact trivial
      | update i => exact trivial
    obtain ⟨state, hstate, rfl⟩ := Option.map_eq_some_iff.mp hstep
    exact ⟨(tidy_step_iff s e _ ht hstep).mpr hdistinct,
      (placed_step_iff s.state e state hp hstate).mpr hcareful⟩
  exact hinv.1

/-- With master 0, a node inserted twice is in the table twice; and of nine nodes the ninth splits the
first bucket and is put back into it, so that kicking it right away does not remove it. -/
theorem twice_and_not_kicked :
    (∃ s, run kicksStep (start 0) [.insert ⟨1, 1⟩ [], .insert ⟨1, 2⟩ []] = some s ∧ ¬ Tidy s) ∧
      ∃ s, run kicksStep (start 0) ([1, 2, 6, 10, 14, 18, 22, 26, 34].map (fun id : ℕ =>
        .insert ⟨BitVec.ofNat _ id, id⟩ []) ++ [.kick 34]) = some s ∧ ¬ Tidy s := by
  refine ⟨⟨_, rfl, fun h => ?_⟩, ⟨_, rfl, fun h => ?_⟩⟩
  · have hids := h.1
    unfold UniqueIds at hids
    exact absurd hids (by decide +kernel)
  · exact h.2 34 rfl ⟨34, 34⟩ (by decide +kernel) rfl

end CppTorrent.Dht.Unique
