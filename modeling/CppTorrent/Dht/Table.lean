import CppTorrent.Dht.Guid
import CppTorrent.Lib.Runs

/-! # The route table

`dht::RouteTable` with its k-buckets. A node is a shared pointer to a `NodeClient`: its id, and a
number that tells the objects apart. Whether a node is alive can change at any time, so the
operations are given the nodes alive when they run; `InsertNode` asks twice, and nodes may die in
between. `Ping` returns at once in this code, so `update_nodes` only removes the nodes that are not
alive. -/

namespace CppTorrent.Dht.Table

open CppTorrent.Dht.Guid

/-- A node client. -/
structure Node where
  id : GUID
  object : ℕ
  deriving DecidableEq

/-- `dht_constants::KBuckets_deep`. -/
def kBucketsDeep : ℕ := 8

/-- `dht::Kbucket`: its nodes in the order of the list. -/
abbrev Kbucket : Type := List Node

/-- `dht::RouteTable`. -/
structure RouteTable where
  master : GUID
  buckets : List Kbucket

/-! ### Buckets -/

/-- `Kbucket::update_nodes`. -/
def updateNodes (alive : Node → Bool) (b : Kbucket) : Kbucket := b.filter alive

/-- `Kbucket::AddNode`: whether there was room, and the bucket after. -/
def addNode (alive : Node → Bool) (n : Node) (b : Kbucket) : Bool × Kbucket :=
  if b.length < kBucketsDeep then (true, b ++ [n])
  else
    let b := updateNodes alive b
    if b.length < kBucketsDeep then (true, b ++ [n]) else (false, b)

/-- `Kbucket::Kick`: erases the first node with the id. -/
def kick (id : GUID) (b : Kbucket) : Kbucket := b.eraseP fun n => n.id = id

/-- `Kbucket::SplitTheBucket`: the nodes that stay and those of the new bucket. -/
def splitTheBucket (master : GUID) (byId : ℕ) (b : Kbucket) : Kbucket × Kbucket :=
  (b.filter fun n => prefixLength n.id master = byId,
    b.filter fun n => prefixLength n.id master ≠ byId)

/-! ### The table -/

namespace RouteTable

/-- `RouteTable::FindBucket`: creates the first bucket if there is none. -/
def findBucket (t : RouteTable) (id : GUID) : ℕ × RouteTable :=
  let t := if t.buckets.length = 0 then { t with buckets := [[]] } else t
  (min (prefixLength t.master id) (t.buckets.length - 1), t)

/-- `RouteTable::try_to_split`. -/
def tryToSplit (t : RouteTable) : Bool × RouteTable :=
  match t.buckets.getLast? with
  | none => (false, t)
  | some b =>
    if t.buckets.length < sha1SizeBits - 1 ∧ 0 < b.length then
      let (stay, new) := splitTheBucket t.master (t.buckets.length - 1) b
      (true, { t with buckets := t.buckets.dropLast ++ [stay, new] })
    else (false, t)

/-- Replaces a bucket. -/
def setBucket (t : RouteTable) (i : ℕ) (b : Kbucket) : RouteTable :=
  { t with buckets := t.buckets.set i b }

/-- The bucket at an index. -/
def bucket (t : RouteTable) (i : ℕ) : Kbucket := t.buckets.getD i []

/-- `RouteTable::InsertNode`, with the nodes alive at the first and at the second call of `AddNode`. The
reference `bucket` stays at its index when the table is split. -/
def insertNode (alive alive' : Node → Bool) (t : RouteTable) (n : Node) : RouteTable :=
  let (bucketId, t) := t.findBucket n.id
  let (added, b) := addNode alive n (t.bucket bucketId)
  let t := t.setBucket bucketId b
  if !added && bucketId == t.buckets.length - 1 then
    let (split, t) := t.tryToSplit
    if split then t.setBucket bucketId (addNode alive' n (t.bucket bucketId)).2 else t
  else t

/-- `RouteTable::KickNode`. -/
def kickNode (t : RouteTable) (id : GUID) : RouteTable :=
  let (bucketId, t) := t.findBucket id
  t.setBucket bucketId (kick id (t.bucket bucketId))

end RouteTable

/-! ### The table in use -/

/-- The table and the nodes that have died. -/
structure State where
  table : RouteTable
  dead : List ℕ

/-- A node whose status is `ENABLED`. -/
def State.alive (s : State) (n : Node) : Bool := !s.dead.contains n.object

/-- The state after nodes have died. -/
def State.die (s : State) (objects : List ℕ) : State := { s with dead := objects ++ s.dead }

/-- What happens to a table. While a node is inserted others may die, after the first call of `AddNode`.
`update` is the refresh timer of a bucket. -/
inductive Event where
  | insert (n : Node) (dying : List ℕ)
  | kick (id : GUID)
  | die (object : ℕ)
  | update (i : ℕ)

/-- One event. -/
def step (s : State) : Event → Option State
  | .insert n dying =>
    let s' := s.die dying
    some { s' with table := s.table.insertNode s.alive s'.alive n }
  | .kick id => some { s with table := s.table.kickNode id }
  | .die object => some (s.die [object])
  | .update i =>
    some { s with table := s.table.setBucket i (updateNodes s.alive (s.table.bucket i)) }

/-- A new table. -/
def init (master : GUID) : State := ⟨⟨master, []⟩, []⟩

end CppTorrent.Dht.Table
