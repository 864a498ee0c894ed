import Mathlib.Data.List.FinRange
import Mathlib.Data.List.Nodup
import Kademlia.Buckets.Indexing

/-!
The k-bucket table over a run of updates.

A call of `update_bucket_peers` leaves the table alone or puts the peer in front
of the bucket of its index, which is in the table, has room and does not know
the id. So the buckets stay small, and since the index is a function of the id,
looking for the id in one bucket is enough to keep the ids of the whole table
apart.
-/

namespace Kademlia.Buckets

open Foundations Foundations.Traced Model

/-- The table after a call of `update_bucket_peers` for each of `peers`. -/
def updateAll (own : Option HashID) (buckets : Model.Buckets) (peers : List Peer) :
    Model.Buckets :=
  peers.foldl (fun buckets peer => (updateBucketPeers own buckets peer).val) buckets

def tablePeers (buckets : Model.Buckets) : List Peer :=
  (List.finRange bucketCount).flatMap fun i => (buckets i).peers

structure WellFormed (own : HashID) (i : ℕ) (list : DList) : Prop where
  size_eq : list.size = list.peers.length
  capacity : list.peers.length ≤ bucketSize
  placed : ∀ p ∈ list.peers, getBucketIndex (distHash own p.peerId) = i
  nodup : (list.peers.map Peer.peerId).Nodup

/-- What the table of the node `own` has to satisfy. -/
structure TableInvariant (own : HashID) (buckets : Model.Buckets) : Prop where
  size_eq : ∀ i, (buckets i).size = (buckets i).peers.length
  capacity : ∀ i, (buckets i).peers.length ≤ bucketSize
  placed : ∀ i, ∀ p ∈ (buckets i).peers, getBucketIndex (distHash own p.peerId) = (i : ℕ)
  distinct : ((tablePeers buckets).map Peer.peerId).Nodup
  own_absent : ∀ p ∈ tablePeers buckets, p.peerId ≠ own

/-! ### One update -/

theorem updateBucketPeers_cases (own : HashID) (buckets : Model.Buckets) (peer : Peer) :
    (updateBucketPeers (some own) buckets peer).val = buckets ∨
      ∃ i : Fin bucketCount, getBucketIndex (distHash own peer.peerId) = (i : ℕ) ∧
        (∀ p ∈ (buckets i).peers, p.peerId ≠ peer.peerId) ∧ (buckets i).size < bucketSize ∧
        (updateBucketPeers (some own) buckets peer).val =
          Function.update buckets i (addFront (buckets i) peer) := by
  simp only [updateBucketPeers]
  generalize getBucketIndex (distHash own peer.peerId) = index
  split
  · exact Or.inl rfl
  · simp only [bucketAt, val_bind, val_pure]
    by_cases hindex : 0 ≤ index ∧ index < bucketCount
    · have hget : buckets.get index = buckets ⟨index.toNat, by omega⟩ := by
        rw [Buckets.get, dif_pos hindex]
      have hset : ∀ list, buckets.set index list =
          Function.update buckets ⟨index.toNat, by omega⟩ list := by
        intro list
        rw [Buckets.set, dif_pos hindex]
      rw [hget]
      split
      · exact Or.inl rfl
      · next hfind =>
          split
          · exact Or.inl rfl
          · next hsize =>
              refine Or.inr ⟨⟨index.toNat, by omega⟩, ?_, ?_, not_le.mp hsize, hset _⟩
              · exact (Int.toNat_of_nonneg hindex.1).symm
              · intro p hp hid
                apply hfind
                rw [findPeerById, List.find?_isSome]
                exact ⟨p, hp, by simpa using hid⟩
    · have hset : ∀ list, buckets.set index list = buckets := by
        intro list
        rw [Buckets.set, dif_neg hindex]
      simp only [hset, ite_self]
      exact Or.inl rfl

theorem addFront_peers (list : DList) (peer : Peer) :
    (addFront list peer).peers = peer :: list.peers := by
  unfold addFront
  split
  · next h => rw [List.isEmpty_iff.mp h]
  · rfl

theorem addFront_size {list : DList} (h : list.size = list.peers.length) (peer : Peer) :
    (addFront list peer).size = (addFront list peer).peers.length := by
  rw [addFront_peers, List.length_cons, ← h]
  unfold addFront
  split
  · next hempty => rw [h, List.isEmpty_iff.mp hempty, List.length_nil]
  · rfl

theorem WellFormed.addFront {own : HashID} {i : ℕ} {list : DList} (h : WellFormed own i list)
    {peer : Peer} (hindex : getBucketIndex (distHash own peer.peerId) = i)
    (hnew : ∀ p ∈ list.peers, p.peerId ≠ peer.peerId) (hroom : list.size < bucketSize) :
    WellFormed own i (Model.addFront list peer) where
  size_eq := addFront_size h.size_eq peer
  capacity := by
    rw [addFront_peers, List.length_cons, ← h.size_eq]
    exact hroom
  placed p hp := by
    rw [addFront_peers] at hp
    rcases List.mem_cons.mp hp with rfl | hp
    · exact hindex
    · exact h.placed p hp
  nodup := by
    rw [addFront_peers, List.map_cons, List.nodup_cons]
    refine ⟨fun hmem => ?_, h.nodup⟩
    obtain ⟨p, hp, hid⟩ := List.mem_map.mp hmem
    exact hnew p hp hid

theorem updateBucketPeers_wellFormed {own : HashID} {buckets : Model.Buckets}
    (h : ∀ i : Fin bucketCount, WellFormed own i (buckets i)) (peer : Peer)
    (i : Fin bucketCount) :
    WellFormed own i ((updateBucketPeers (some own) buckets peer).val i) := by
  rcases updateBucketPeers_cases own buckets peer with heq | ⟨j, hindex, hnew, hroom, heq⟩
  · rw [heq]
    exact h i
  · rw [heq]
    by_cases hij : i = j
    · subst hij
      rw [Function.update_self]
      exact (h i).addFront hindex hnew hroom
    · rw [Function.update_of_ne hij]
      exact h i

/-- A bucket is only ever extended at its front. -/
theorem updateBucketPeers_suffix (own : HashID) (buckets : Model.Buckets) (peer : Peer)
    (i : Fin bucketCount) :
    (buckets i).peers <:+ ((updateBucketPeers (some own) buckets peer).val i).peers := by
  rcases updateBucketPeers_cases own buckets peer with heq | ⟨j, -, -, -, heq⟩
  · rw [heq]
  · rw [heq]
    by_cases hij : i = j
    · subst hij
      rw [Function.update_self, addFront_peers]
      exact List.suffix_cons peer _
    · rw [Function.update_of_ne hij]

/-! ### The whole table -/

theorem wellFormed_empty (own : HashID) (i : Fin bucketCount) :
    WellFormed own i (Buckets.empty i) :=
  ⟨rfl, Nat.zero_le _, by simp [Buckets.empty, DList.empty], List.nodup_nil⟩

/-- Peers of different buckets have different ids, because these have different
indexes. -/
theorem tableInvariant_of_wellFormed {own : HashID} {buckets : Model.Buckets}
    (h : ∀ i : Fin bucketCount, WellFormed own i (buckets i)) : TableInvariant own buckets where
  size_eq i := (h i).size_eq
  capacity i := (h i).capacity
  placed i := (h i).placed
  distinct := by
    rw [tablePeers, List.map_flatMap, List.nodup_flatMap]
    refine ⟨fun i _ => (h i).nodup, ?_⟩
    refine (List.nodup_finRange bucketCount).imp fun {i j} hij => ?_
    intro id hi hj
    obtain ⟨p, hp, rfl⟩ := List.mem_map.mp hi
    obtain ⟨p', hp', hid⟩ := List.mem_map.mp hj
    have hindex := (h j).placed p' hp'
    rw [hid, (h i).placed p hp] at hindex
    exact hij (Fin.ext (Int.ofNat_inj.mp hindex))
  own_absent p hp := by
    obtain ⟨i, -, hp⟩ := List.mem_flatMap.mp hp
    intro hid
    have hindex := (h i).placed p hp
    rw [getBucketIndex_eq_neg_one_iff.mpr hid.symm] at hindex
    omega

theorem updateAll_append (own : Option HashID) (buckets : Model.Buckets)
    (earlier later : List Peer) :
    updateAll own buckets (earlier ++ later) =
      updateAll own (updateAll own buckets earlier) later :=
  List.foldl_append

theorem updateAll_wellFormed (own : HashID) {buckets : Model.Buckets}
    (h : ∀ i : Fin bucketCount, WellFormed own i (buckets i)) (peers : List Peer)
    (i : Fin bucketCount) : WellFormed own i (updateAll (some own) buckets peers i) := by
  induction peers generalizing buckets with
  | nil => exact h i
  | cons peer peers ih => exact ih fun j => updateBucketPeers_wellFormed h peer j

theorem updateAll_suffix (own : HashID) (buckets : Model.Buckets) (peers : List Peer)
    (i : Fin bucketCount) :
    (buckets i).peers <:+ (updateAll (some own) buckets peers i).peers := by
  induction peers generalizing buckets with
  | nil => exact List.suffix_rfl
  | cons peer peers ih => exact (updateBucketPeers_suffix own buckets peer i).trans (ih _)

/-- Every table that updates make out of the empty one satisfies the invariant,
and whatever is in a bucket stays there, with its id and address. -/
theorem updateAll_tableInvariant (own : HashID) (earlier later : List Peer) :
    TableInvariant own (updateAll (some own) Buckets.empty earlier) ∧
      ∀ i, (updateAll (some own) Buckets.empty earlier i).peers <:+
        (updateAll (some own) Buckets.empty (earlier ++ later) i).peers := by
  constructor
  · exact tableInvariant_of_wellFormed fun i =>
      updateAll_wellFormed own (wellFormed_empty own) earlier i
  · intro i
    rw [updateAll_append]
    exact updateAll_suffix own _ later i

end Kademlia.Buckets
