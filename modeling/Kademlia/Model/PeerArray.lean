import Kademlia.Model.Buckets

/-!
`find_nearest` and `find_closest_peers` on arrays of pointers.

In the source the selected peers are stored through a pointer into the result
array, behind what earlier calls stored there, and what comes back is their
number. `findNearest` and `findClosestPeers` give the same as lists. The
accesses to the table are those of `findClosestPeers` and not recorded again.
-/

namespace Kademlia.Model

/-- An array of pointers to peers; `none` is `NULL`. -/
abbrev PeerArray := ℕ → Option Peer

/-- The variables of `find_nearest`. Only entries of `neighbors_dist` below `n` are
read, so it does not matter that it starts uninitialised. -/
structure NearestLoop where
  outPeers : PeerArray
  neighborsDist : ℕ → HashID
  n : ℕ

/-- Neighbor `i` is replaced if it is farther away than `current`; `start` is where
the array of the call starts in the result. -/
def replaceFarther (start : ℕ) (current : Peer) (currentDist : HashID) (s : NearestLoop) (i : ℕ) :
    NearestLoop :=
  if compareHashes (s.neighborsDist i) currentDist > 0 then
    { s with
      outPeers := Function.update s.outPeers (start + i) (some current)
      neighborsDist := Function.update s.neighborsDist i currentDist }
  else s

def nearestStepAt (id : HashID) (start maxNeighbors : ℕ) (s : NearestLoop) (current : Peer) :
    NearestLoop :=
  let currentDist := distHash current.peerId id
  if s.n < maxNeighbors then
    { outPeers := Function.update s.outPeers (start + s.n) (some current)
      neighborsDist := Function.update s.neighborsDist s.n currentDist
      n := s.n + 1 }
  else (List.range s.n).foldl (replaceFarther start current currentDist) s

/-- `find_nearest(list, id, result + start, maxNeighbors)`: the array and the return value. -/
def findNearestAt (list : DList) (id : HashID) (result : PeerArray) (start maxNeighbors : ℕ) :
    PeerArray × ℕ :=
  if list.peers.isEmpty || maxNeighbors == 0 then (result, 0)
  else
    let s := list.peers.foldl (nearestStepAt id start maxNeighbors)
      ⟨result, fun _ => zeroBytes 32, 0⟩
    (s.outPeers, s.n)

/-- One call of `find_nearest` by `find_closest_peers`, on `result` and `count`. -/
def takeNearestAt (buckets : Buckets) (target : HashID) (n : ℕ) (i : ℤ) (result : PeerArray × ℕ) :
    PeerArray × ℕ :=
  let found := findNearestAt (buckets.get i) target result.1 result.2 (n - result.2)
  (found.1, result.2 + found.2)

/-- The widening loop, on `result` and `count`. -/
def widenAt (buckets : Buckets) (target : HashID) (n : ℕ) (bucketIndex : ℤ) :
    ℕ → ℕ → PeerArray × ℕ → PeerArray × ℕ
  | 0, _, result => result
  | fuel + 1, offset, result =>
      if result.2 < n ∧ (bucketIndex - offset ≥ 0 ∨ bucketIndex + offset < bucketCount) then
        let result :=
          if bucketIndex - offset ≥ 0 then
            takeNearestAt buckets target n (bucketIndex - offset) result
          else result
        let result :=
          if bucketIndex + offset < bucketCount then
            takeNearestAt buckets target n (bucketIndex + offset) result
          else result
        widenAt buckets target n bucketIndex fuel (offset + 1) result
      else result

/-- The array that `find_closest_peers` returns; it comes from `calloc`. -/
def findClosestArray (own : Option HashID) (buckets : Buckets) (target : HashID) (n : ℕ) :
    Option PeerArray :=
  match own with
  | none => none
  | some ownId =>
      let bucketIndex := getBucketIndex (distHash ownId target)
      if bucketIndex = -1 then none
      else
        let result := takeNearestAt buckets target n bucketIndex (fun _ => none, 0)
        let result := widenAt buckets target n bucketIndex 256 1 result
        if result.2 = 0 then none else some result.1

end Kademlia.Model
