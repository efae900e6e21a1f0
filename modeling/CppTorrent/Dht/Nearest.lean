import CppTorrent.Dht.Table

/-! # The nodes nearest to a hash

`FindNearestList` collects nodes, sorts them by `XORDistance` and keeps the first 35. But the loop that
collects the nodes runs over the braced list of the two reverse iterators `rbegin()` and `rend()`, not
over the buckets between them, and `rend()` does not point to a bucket: every call leaves the table
(`findNearestList_eq_none`). -/

namespace CppTorrent.Dht.Nearest

open CppTorrent.Dht.Guid CppTorrent.Dht.Table

/-- `dht_constants::max_nearest_nodes`. -/
def maxNearestNodes : ℕ := 35

/-- The bucket a reverse iterator points to: the one before its base. -/
def derefReverse (buckets : List Kbucket) : ℕ → Option Kbucket
  | 0 => none
  | base + 1 => buckets[base]?

/-- The base of `buckets_.rbegin()`. -/
def rbegin (buckets : List Kbucket) : ℕ := buckets.length

/-- The base of `buckets_.rend()`. -/
def rend (_ : List Kbucket) : ℕ := 0

/-- The end of `FindNearestList`: sorts by distance and drops what is too many. -/
def sortByDistance (hash : GUID) (res : List Node) : List Node :=
  let res := res.mergeSort fun n1 n2 =>
    decide ((xorDistance hash n1.id).toNat ≤ (xorDistance hash n2.id).toNat)
  if maxNearestNodes < res.length then res.take maxNearestNodes else res

/-- `RouteTable::FindNearestList`; `none` if it accesses a bucket that does not exist. -/
def findNearestList (t : RouteTable) (hash : GUID) : Option (List Node) := do
  let origins ← [rbegin t.buckets, rend t.buckets].mapM (derefReverse t.buckets)
  return sortByDistance hash origins.flatten

/-! ### What the nearest nodes are -/

/-- The number of an id read from position 0 down. -/
def bigEndian (id : GUID) : ℕ := id.reverse.toNat

/-- `res` are the `min (35, n)` of the `n` nodes with the smallest distance, in ascending order. -/
def IsNearest (dist : GUID → ℕ) (hash : GUID) (nodes res : List Node) : Prop :=
  res.length = min maxNearestNodes nodes.length ∧
    (res.Pairwise fun a b => dist (xorDistance hash a.id) ≤ dist (xorDistance hash b.id)) ∧
    ∃ rest, (res ++ rest).Perm nodes ∧
      ∀ a ∈ res, ∀ b ∈ rest, dist (xorDistance hash a.id) ≤ dist (xorDistance hash b.id)

/-! ### The loop over the buckets -/

/-- The loop dereferences `rend()`. -/
theorem findNearestList_eq_none (t : RouteTable) (hash : GUID) :
    findNearestList t hash = none := by
  have hrend : derefReverse t.buckets (rend t.buckets) = none := rfl
  simp [findNearestList, hrend]

/-- **No call accesses only buckets of the table and returns the nearest nodes.** -/
theorem findNearestList_never_nearest (t : RouteTable) (hash : GUID) :
    ¬ ∃ res, findNearestList t hash = some res ∧
      IsNearest bigEndian hash t.buckets.flatten res := by
  rintro ⟨res, h, -⟩
  rw [findNearestList_eq_none] at h
  cases h

/-- A table with one node in its only bucket. -/
theorem findNearestList_one_node :
    ¬ ∃ res, findNearestList ⟨0, [[⟨1, 1⟩]]⟩ 0 = some res ∧
      IsNearest bigEndian 0 [⟨1, 1⟩] res := by
  rintro ⟨res, h, -⟩
  have hnone : findNearestList ⟨0, [[⟨1, 1⟩]]⟩ 0 = none := rfl
  rw [hnone] at h
  cases h

end CppTorrent.Dht.Nearest
