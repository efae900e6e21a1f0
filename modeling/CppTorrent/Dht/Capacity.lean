import CppTorrent.Dht.Table
import CppTorrent.Lib.Growable

/-! # The room in the route table

The table as the code keeps it, in a vector for which the constructor has reserved 160 elements.
`InsertNode` takes a reference to a bucket and uses it again after `try_to_split` has appended a
bucket; `SplitTheBucket` throws on an empty bucket. Every access is checked here, and an access that
is not allowed is a `Fault`.

No operation has a fault, and each does what it does in `Dht.Table` (`apply_sound`): a bucket has at
most 8 nodes, and the 160 elements reserved are never used up, since `try_to_split` stops at 159
buckets (`run_sound`). -/

namespace CppTorrent.Dht.Capacity

open CppTorrent.Dht.Guid CppTorrent.Dht.Table CppTorrent.Lib.Growable CppTorrent.Lib.Runs

/-- An access that is not allowed. -/
inductive Fault where
  | misuse (m : Misuse)
  /-- "trying to split empty k-bucket!" -/
  | emptySplit
  deriving DecidableEq

/-- `dht::RouteTable`, with its buckets in a vector. -/
structure Buckets where
  master : GUID
  buckets : Vec Kbucket

namespace Buckets

/-- The table without its storage. -/
def table (t : Buckets) : RouteTable := ⟨t.master, t.buckets.items⟩

/-- `buckets_[i]`, as a reference. -/
def ref (i : ℕ) (t : Buckets) : Except Fault Ref := (t.buckets.ref i).mapError .misuse

/-- Calls a function of the bucket behind a reference. -/
def update {β : Type} (r : Ref) (f : Kbucket → β × Kbucket) (t : Buckets) : Except Fault (β × Buckets) :=
  ((t.buckets.update r f).mapError .misuse).map fun (ret, buckets) => (ret, { t with buckets := buckets })

/-- `Kbucket::SplitTheBucket`: the new bucket, and the nodes that stay. -/
def splitTheBucket (master : GUID) (byId : ℕ) (b : Kbucket) : Except Fault (Kbucket × Kbucket) :=
  if b = [] then .error .emptySplit
  else
    let (stay, new) := Table.splitTheBucket master byId b
    .ok (new, stay)

/-- `RouteTable::FindBucket`: creates the first bucket if there is none. -/
def findBucket (t : Buckets) (id : GUID) : ℕ × Buckets :=
  let t := if t.buckets.items.length = 0 then { t with buckets := t.buckets.pushBack [] } else t
  (min (prefixLength t.master id) (t.buckets.items.length - 1), t)

/-- `RouteTable::try_to_split`. -/
def tryToSplit (t : Buckets) : Except Fault (Bool × Buckets) :=
  let size := t.buckets.items.length
  if size < sha1SizeBits - 1 ∧ size ≠ 0 ∧ 0 < (t.buckets.items.getLastD []).length then do
    let last ← t.ref (size - 1)
    let (new, stay) ← splitTheBucket t.master (size - 1) (t.buckets.items.getLastD [])
    let (_, t) ← t.update last fun _ => ((), stay)
    return (true, { t with buckets := t.buckets.pushBack new })
  else return (false, t)

/-- `RouteTable::InsertNode`, with the nodes alive at the two calls of `AddNode`. -/
def insertNode (alive alive' : Node → Bool) (t : Buckets) (n : Node) : Except Fault Buckets := do
  let (bucketId, t) := t.findBucket n.id
  let bucket ← t.ref bucketId
  let (added, t) ← t.update bucket (addNode alive n)
  if !added && bucketId == t.buckets.items.length - 1 then
    let (split, t) ← t.tryToSplit
    if split then
      let (_, t) ← t.update bucket (addNode alive' n)
      return t
    else return t
  else return t

/-- `RouteTable::KickNode`. -/
def kickNode (t : Buckets) (id : GUID) : Except Fault Buckets := do
  let (bucketId, t) := t.findBucket id
  let bucket ← t.ref bucketId
  let (_, t) ← t.update bucket fun b => ((), kick id b)
  return t

/-- The constructor of `RouteTable`. -/
def constructed (master : GUID) : Buckets := ⟨master, reserve sha1SizeBits⟩

end Buckets

/-- `Kbucket::ResetNode`: puts the node in the place of the first one with its id. -/
def resetNode (n : Node) : Kbucket → Kbucket
  | [] => []
  | x :: b => if x.id = n.id then n :: b else x :: resetNode n b

/-! ### The table in use -/

/-- The table and the nodes that have died. -/
structure State where
  buckets : Buckets
  dead : List ℕ

/-- A node whose status is `ENABLED`. -/
def State.alive (s : State) (n : Node) : Bool := !s.dead.contains n.object

/-- The state after nodes have died. -/
def State.die (s : State) (objects : List ℕ) : State := { s with dead := objects ++ s.dead }

/-- What is done with a table. `reset` and `update` are calls for a bucket of the table. While a node is
inserted others may die, after the first call of `AddNode`. -/
inductive Operation where
  | insert (n : Node) (dying : List ℕ)
  | kick (id : GUID)
  | reset (i : ℕ) (n : Node)
  | update (i : ℕ)
  | die (object : ℕ)

/-- Calls a function for the bucket at an index, if there is one. -/
def onBucket (i : ℕ) (f : Kbucket → Kbucket) (t : Buckets) : Except Fault Buckets :=
  if i < t.buckets.items.length then do
    let bucket ← t.ref i
    let (_, t) ← t.update bucket fun b => ((), f b)
    return t
  else return t

/-- Performs an operation. -/
def apply (s : State) : Operation → Except Fault State
  | .insert n dying =>
    let s' := s.die dying
    (s.buckets.insertNode s.alive s'.alive n).map fun t => { s' with buckets := t }
  | .kick id => (s.buckets.kickNode id).map fun t => { s with buckets := t }
  | .reset i n => (onBucket i (resetNode n) s.buckets).map fun t => { s with buckets := t }
  | .update i => (onBucket i (updateNodes s.alive) s.buckets).map fun t => { s with buckets := t }
  | .die object => .ok (s.die [object])

/-- A new table. -/
def init (master : GUID) : State := ⟨Buckets.constructed master, []⟩

/-! ### Accesses that are allowed -/

/-- Nothing has been moved, there are fewer buckets than elements reserved, and no bucket has more
nodes than it may have. -/
structure Sound (t : Buckets) : Prop where
  reserved : t.buckets.capacity = sha1SizeBits
  unmoved : t.buckets.block = 0
  few : t.buckets.items.length ≤ sha1SizeBits - 1
  small : ∀ b ∈ t.buckets.items, b.length ≤ kBucketsDeep

/-- Replaces a bucket. -/
def Buckets.set (t : Buckets) (i : ℕ) (b : Kbucket) : Buckets :=
  { t with buckets := { t.buckets with items := t.buckets.items.set i b } }

theorem table_set (t : Buckets) (i : ℕ) (b : Kbucket) :
    (t.set i b).table = t.table.setBucket i b := rfl

theorem length_set (t : Buckets) (i : ℕ) (b : Kbucket) :
    (t.set i b).buckets.items.length = t.buckets.items.length := List.length_set ..

variable {t : Buckets}

theorem Sound.room (h : Sound t) : t.buckets.items.length < t.buckets.capacity := by
  have hfew := h.few
  rw [h.reserved]
  unfold sha1SizeBits at *
  omega

theorem Sound.small_bucket (h : Sound t) (i : ℕ) : (t.table.bucket i).length ≤ kBucketsDeep := by
  unfold RouteTable.bucket Buckets.table
  rw [List.getD_eq_getElem?_getD]
  cases hi : t.buckets.items[i]? with
  | none => exact Nat.zero_le _
  | some b => exact h.small b (List.mem_of_getElem? hi)

theorem Sound.set (h : Sound t) {i : ℕ} {b : Kbucket} (hb : b.length ≤ kBucketsDeep) :
    Sound (t.set i b) := by
  refine ⟨h.reserved, h.unmoved, ?_, fun b' hb' => ?_⟩
  · rw [length_set]
    exact h.few
  · rcases List.mem_or_eq_of_mem_set hb' with hb' | rfl
    · exact h.small b' hb'
    · exact hb

theorem ref_eq_ok {i : ℕ} (hi : i < t.buckets.items.length) : t.ref i = .ok ⟨i, t.buckets.block⟩ := by
  unfold Buckets.ref
  rw [Vec.ref_eq_ok hi]
  rfl

/-- A function of a bucket, called through a reference to it. -/
theorem update_eq_ok {β : Type} {r : Ref} (hr : ValidIn t.buckets r) (f : Kbucket → β × Kbucket) :
    t.update r f =
      .ok ((f (t.table.bucket r.index)).1, t.set r.index (f (t.table.bucket r.index)).2) := by
  have hget : t.buckets.items[r.index]? = some (t.table.bucket r.index) := by
    unfold RouteTable.bucket Buckets.table
    rw [List.getD_eq_getElem?_getD, List.getElem?_eq_getElem hr.2, Option.getD_some]
  unfold Buckets.update
  rw [Vec.update_eq_ok hr hget]
  rfl

/-! ### The operations -/

theorem length_addNode {alive : Node → Bool} {n : Node} {b : Kbucket} (h : b.length ≤ kBucketsDeep) :
    (addNode alive n b).2.length ≤ kBucketsDeep := by
  have hle : (updateNodes alive b).length ≤ b.length := List.length_filter_le alive b
  unfold addNode
  dsimp only
  split_ifs with h1 h2
  · rw [List.length_append, List.length_singleton]
    exact h1
  · rw [List.length_append, List.length_singleton]
    exact h2
  · exact hle.trans h

theorem length_resetNode (n : Node) (b : Kbucket) : (resetNode n b).length = b.length := by
  induction b with
  | nil => rfl
  | cons x b ih =>
    rw [resetNode]
    split_ifs
    · rfl
    · rw [List.length_cons, List.length_cons, ih]

/-- **The bucket that `FindBucket` gives is one of the table**, whatever the id. -/
theorem findBucket_sound (h : Sound t) (id : GUID) :
    Sound (t.findBucket id).2 ∧
      (t.findBucket id).1 < (t.findBucket id).2.buckets.items.length ∧
      ((t.findBucket id).1, (t.findBucket id).2.table) = t.table.findBucket id := by
  unfold Buckets.findBucket RouteTable.findBucket
  by_cases hlen : t.buckets.items.length = 0
  · have hnil : t.buckets.items = [] := List.length_eq_zero_iff.mp hlen
    have htable : t.table.buckets.length = 0 := hlen
    rw [if_pos hlen, if_pos htable, Vec.pushBack_of_room h.room, hnil]
    refine ⟨⟨h.reserved, h.unmoved, ?_, fun b hb => ?_⟩, ?_, rfl⟩
    · change 1 ≤ sha1SizeBits - 1
      decide
    · obtain rfl := List.mem_singleton.mp hb
      exact Nat.zero_le _
    · exact Nat.lt_of_le_of_lt (min_le_right _ _) Nat.zero_lt_one
  · have htable : ¬ t.table.buckets.length = 0 := hlen
    rw [if_neg hlen, if_neg htable]
    refine ⟨h, ?_, rfl⟩
    dsimp only
    omega

/-- **`try_to_split` has room for the new bucket, and does not split an empty one.** -/
theorem tryToSplit_sound (h : Sound t) :
    ∃ split t', t.tryToSplit = .ok (split, t') ∧ Sound t' ∧
      (split, t'.table) = t.table.tryToSplit ∧
      ∀ r, ValidIn t.buckets r → ValidIn t'.buckets r := by
  unfold Buckets.tryToSplit RouteTable.tryToSplit
  rcases List.eq_nil_or_concat t.buckets.items with hnil | ⟨pre, last, hitems⟩
  · have htable : t.table.buckets.getLast? = none := by
      unfold Buckets.table
      rw [hnil]
      rfl
    dsimp only
    rw [if_neg (by rw [hnil]; simp), htable]
    exact ⟨false, t, rfl, h, rfl, fun r hr => hr⟩
  · rw [List.concat_eq_append] at hitems
    have htable : t.table.buckets.getLast? = some last := by
      unfold Buckets.table
      rw [hitems, List.getLast?_concat]
    have hlast : t.buckets.items.getLastD [] = last := by
      rw [hitems, List.getLastD_concat]
    have hsize : t.buckets.items.length = pre.length + 1 := by
      rw [hitems, List.length_append, List.length_singleton]
    have hsize' : t.table.buckets.length = pre.length + 1 := hsize
    rw [htable, hlast]
    dsimp only
    rw [hsize, hsize']
    by_cases hsplit : pre.length + 1 < sha1SizeBits - 1 ∧ 0 < last.length
    · have hne : last ≠ [] := List.length_pos_iff.mp hsplit.2
      rw [if_pos ⟨hsplit.1, by omega, hsplit.2⟩, if_pos hsplit, Nat.add_sub_cancel]
      have hvalid : pre.length < t.buckets.items.length := by omega
      have hset : ∀ b, t.set pre.length b =
          { t with buckets := { t.buckets with items := pre ++ [b] } } := by
        intro b
        unfold Buckets.set
        rw [hitems, List.set_append_right _ _ le_rfl, Nat.sub_self, List.set_cons_zero]
      have hroom : ∀ b : Kbucket, (pre ++ [b]).length < t.buckets.capacity := by
        intro b
        rw [List.length_append, List.length_singleton, ← hsize]
        exact h.room
      rw [ref_eq_ok hvalid]
      unfold Buckets.splitTheBucket
      rw [if_neg hne]
      simp only [bind, Except.bind, update_eq_ok (validIn_ref hvalid), hset, pure, Except.pure]
      rw [Vec.pushBack_of_room (hroom _)]
      refine ⟨true, _, rfl, ⟨h.reserved, h.unmoved, ?_, fun b hb => ?_⟩, ?_, fun r hr => ⟨hr.1, ?_⟩⟩
      · simp only [List.length_append, List.length_singleton]
        omega
      · -- the parts of a bucket are no longer than it was
        have hle : last.length ≤ kBucketsDeep := h.small last (by rw [hitems]; simp)
        have hpre : ∀ b' ∈ pre, b'.length ≤ kBucketsDeep := fun b' hb' =>
          h.small b' (by rw [hitems]; exact List.mem_append_left _ hb')
        simp only [List.mem_append, List.mem_singleton] at hb
        rcases hb with (hb | rfl) | rfl
        · exact hpre b hb
        · exact (List.length_filter_le _ _).trans hle
        · exact (List.length_filter_le _ _).trans hle
      · unfold Buckets.table
        rw [hitems]
        simp only [List.dropLast_concat, List.append_assoc, List.singleton_append]
      · have hlt := hr.2
        rw [hsize] at hlt
        simp only [List.length_append, List.length_singleton]
        omega
    · rw [if_neg (fun hall => hsplit ⟨hall.1, hall.2.2⟩), if_neg hsplit]
      exact ⟨false, t, rfl, h, rfl, fun r hr => hr⟩

/-- **`InsertNode` may use its reference to the bucket after a split.** -/
theorem insertNode_sound (h : Sound t) (alive alive' : Node → Bool) (n : Node) :
    ∃ t', t.insertNode alive alive' n = .ok t' ∧ Sound t' ∧
      t'.table = t.table.insertNode alive alive' n := by
  obtain ⟨h1, hi, hfind⟩ := findBucket_sound h n.id
  unfold Buckets.insertNode RouteTable.insertNode
  rw [← hfind]
  generalize t.findBucket n.id = found at *
  obtain ⟨i, t1⟩ := found
  dsimp only at h1 hi ⊢
  have hvalid : ValidIn t1.buckets ⟨i, t1.buckets.block⟩ := validIn_ref hi
  -- the first `AddNode`
  have h2 : Sound (t1.set i (addNode alive n (t1.table.bucket i)).2) :=
    h1.set (length_addNode (h1.small_bucket i))
  have hvalid2 : ValidIn (t1.set i (addNode alive n (t1.table.bucket i)).2).buckets
      ⟨i, t1.buckets.block⟩ := hvalid.set i _
  have hlen : (t1.table.setBucket i (addNode alive n (t1.table.bucket i)).2).buckets.length =
      (t1.set i (addNode alive n (t1.table.bucket i)).2).buckets.items.length := rfl
  rw [ref_eq_ok hi]
  simp only [bind, Except.bind, update_eq_ok hvalid, pure, Except.pure, hlen]
  rw [← table_set]
  generalize (t1.set i (addNode alive n (t1.table.bucket i)).2) = t2 at *
  by_cases hlast : (!(addNode alive n (t1.table.bucket i)).1 &&
      i == t2.buckets.items.length - 1) = true
  · rw [if_pos hlast, if_pos hlast]
    obtain ⟨split, t3, htry, h3, hsplit, hkeep⟩ := tryToSplit_sound h2
    rw [← hsplit, htry]
    dsimp only
    cases split with
    | false => exact ⟨t3, rfl, h3, rfl⟩
    | true =>
      -- the second `AddNode`
      simp only [if_true, update_eq_ok (hkeep _ hvalid2)]
      exact ⟨_, rfl, h3.set (length_addNode (h3.small_bucket i)), table_set ..⟩
  · rw [if_neg hlast, if_neg hlast]
    exact ⟨t2, rfl, h2, rfl⟩

theorem kickNode_sound (h : Sound t) (id : GUID) :
    ∃ t', t.kickNode id = .ok t' ∧ Sound t' ∧ t'.table = t.table.kickNode id := by
  obtain ⟨h1, hi, hfind⟩ := findBucket_sound h id
  unfold Buckets.kickNode RouteTable.kickNode
  rw [← hfind]
  generalize t.findBucket id = found at *
  obtain ⟨i, t1⟩ := found
  dsimp only at h1 hi ⊢
  rw [ref_eq_ok hi]
  simp only [bind, Except.bind, update_eq_ok (validIn_ref hi), pure, Except.pure]
  have hle : (kick id (t1.table.bucket i)).length ≤ kBucketsDeep :=
    List.eraseP_sublist.length_le.trans (h1.small_bucket i)
  exact ⟨_, rfl, h1.set hle, table_set ..⟩

/-- A function that adds no nodes, called for a bucket. -/
theorem onBucket_sound (h : Sound t) (i : ℕ) {f : Kbucket → Kbucket}
    (hf : ∀ b, (f b).length ≤ b.length) :
    ∃ t', onBucket i f t = .ok t' ∧ Sound t' ∧
      t'.table = t.table.setBucket i (f (t.table.bucket i)) := by
  unfold onBucket
  by_cases hi : i < t.buckets.items.length
  · rw [if_pos hi, ref_eq_ok hi]
    simp only [bind, Except.bind, update_eq_ok (validIn_ref hi), pure, Except.pure]
    exact ⟨_, rfl, h.set ((hf _).trans (h.small_bucket i)), table_set ..⟩
  · rw [if_neg hi]
    have hle : t.table.buckets.length ≤ i := not_lt.mp hi
    refine ⟨t, rfl, h, ?_⟩
    unfold RouteTable.setBucket
    rw [List.set_eq_of_length_le hle]

/-- What an operation does to a table whose storage is left aside. -/
def plain (s : Table.State) : Operation → Table.State
  | .insert n dying =>
    let s' := s.die dying
    { s' with table := s.table.insertNode s.alive s'.alive n }
  | .kick id => { s with table := s.table.kickNode id }
  | .reset i n => { s with table := s.table.setBucket i (resetNode n (s.table.bucket i)) }
  | .update i => { s with table := s.table.setBucket i (updateNodes s.alive (s.table.bucket i)) }
  | .die object => s.die [object]

/-- The state without the storage of the table. -/
def State.toTable (s : State) : Table.State := ⟨s.buckets.table, s.dead⟩

/-- **An operation has no fault, and does what it does without the storage.** -/
theorem apply_sound (s : State) (h : Sound s.buckets) (op : Operation) :
    ∃ s', apply s op = .ok s' ∧ Sound s'.buckets ∧ s'.toTable = plain s.toTable op := by
  cases op with
  | insert n dying =>
    obtain ⟨t', hok, hsound, htable⟩ := insertNode_sound h s.alive (s.die dying).alive n
    refine ⟨{ s.die dying with buckets := t' }, ?_, hsound, ?_⟩
    · simp only [apply]
      rw [hok]
      rfl
    · rw [State.toTable, htable]
      rfl
  | kick id =>
    obtain ⟨t', hok, hsound, htable⟩ := kickNode_sound h id
    refine ⟨{ s with buckets := t' }, ?_, hsound, ?_⟩
    · rw [apply, hok]
      rfl
    · rw [State.toTable, htable]
      rfl
  | reset i n =>
    obtain ⟨t', hok, hsound, htable⟩ := onBucket_sound h i fun b => (length_resetNode n b).le
    refine ⟨{ s with buckets := t' }, ?_, hsound, ?_⟩
    · rw [apply, hok]
      rfl
    · rw [State.toTable, htable]
      rfl
  | update i =>
    obtain ⟨t', hok, hsound, htable⟩ := onBucket_sound h i (List.length_filter_le s.alive)
    refine ⟨{ s with buckets := t' }, ?_, hsound, ?_⟩
    · rw [apply]
      unfold updateNodes
      rw [hok]
      rfl
    · rw [State.toTable, htable]
      rfl
  | die object => exact ⟨_, rfl, h, rfl⟩

/-! ### Sequences of operations -/

theorem sound_init (master : GUID) : Sound (init master).buckets :=
  ⟨rfl, rfl, Nat.zero_le _, fun b hb => by cases hb⟩

theorem foldlM_sound : ∀ (ops : List Operation) (s : State), Sound s.buckets →
    ∃ s', ops.foldlM apply s = .ok s' ∧ Sound s'.buckets ∧ s'.toTable = ops.foldl plain s.toTable
  | [], s, h => ⟨s, rfl, h, rfl⟩
  | op :: ops, s, h => by
    obtain ⟨s1, hok, h1, htable1⟩ := apply_sound s h op
    obtain ⟨s2, hok2, h2, htable2⟩ := foldlM_sound ops s1 h1
    refine ⟨s2, ?_, h2, ?_⟩
    · rw [List.foldlM_cons, hok]
      exact hok2
    · rw [List.foldl_cons, ← htable1]
      exact htable2

/-- The operation of an event of `Dht.Table`. -/
def ofEvent : Event → Operation
  | .insert n dying => .insert n dying
  | .kick id => .kick id
  | .die object => .die object
  | .update i => .update i

theorem run_eq_foldl : ∀ (es : List Event) (s : Table.State),
    run step s es = some ((es.map ofEvent).foldl plain s)
  | [], s => rfl
  | e :: es, s => by
    have hstep : step s e = some (plain s (ofEvent e)) := by cases e <;> rfl
    rw [run, hstep, Option.bind_some, run_eq_foldl es]
    rfl

/-- The bounds hold in the runs of `Dht.Table`, too. -/
theorem bounded_run {master : GUID} {es : List Event} {s : Table.State}
    (h : run step (Table.init master) es = some s) :
    s.table.buckets.length ≤ sha1SizeBits - 1 ∧ ∀ b ∈ s.table.buckets, b.length ≤ kBucketsDeep := by
  obtain ⟨s', -, hsound, htable⟩ := foldlM_sound (es.map ofEvent) (init master) (sound_init master)
  have hs : s = s'.toTable := by
    rw [run_eq_foldl] at h
    rw [htable]
    exact (Option.some.inj h).symm
  rw [hs]
  exact ⟨hsound.few, hsound.small⟩

/-- **The capacity of the route table.** No sequence of operations has a fault: no bucket is accessed
that does not exist, no reference is used after the buckets have moved, and no empty bucket is split.
Afterwards every bucket has at most 8 nodes, there are at most 159 buckets in storage reserved for
160, the buckets have never moved, and `FindBucket` gives a bucket of the table for every id. -/
theorem run_sound (master : GUID) (ops : List Operation) :
    ∃ s, ops.foldlM apply (init master) = .ok s ∧
      (∀ b ∈ s.buckets.buckets.items, b.length ≤ 8) ∧
      s.buckets.buckets.items.length ≤ 159 ∧ s.buckets.buckets.capacity = 160 ∧
      s.buckets.buckets.block = (init master).buckets.buckets.block ∧
      ∀ id, (s.buckets.findBucket id).1 < (s.buckets.findBucket id).2.buckets.items.length := by
  obtain ⟨s, hok, h, -⟩ := foldlM_sound ops (init master) (sound_init master)
  exact ⟨s, hok, h.small, h.few, h.reserved, h.unmoved, fun id => (findBucket_sound h id).2.1⟩

end CppTorrent.Dht.Capacity
