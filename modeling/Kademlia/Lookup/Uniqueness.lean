import Kademlia.Buckets.Closest
import Kademlia.Lookup.Sweeps

/-!
Peers that are asked twice.

The ids of the closest lists are compared with those already pending, the ids
of the initial list with nothing. So the pending list has each id once as long
as `find_closest_peers` returned no peer twice.
-/

namespace Kademlia.Lookup

open Foundations Foundations.Traced Foundations.Worklist Model Buckets

variable {q : Search} {net : Network}

theorem Step.nodup {s s' : LookupState} (h : Step q net s s')
    (hs : (s.pending.data.map Peer.peerId).Nodup) :
    (s'.pending.data.map Peer.peerId).Nodup := by
  cases h with
  | begin _ _ _ => exact hs
  | leave _ _ => exact hs
  | @contact i p t _ _ _ ht =>
      have hpush : (t.pending.data.map Peer.peerId).Nodup := by
        rw [ht.pending]
        exact nodup_pushAll Peer.peerId hs _
      split <;> exact hpush
  | skip _ _ _ => exact hs
  | finish _ _ => exact hs
  | stay _ => exact hs

theorem Consistent.requests_nodup {s : LookupState} (h : Consistent s)
    (hnodup : (s.pending.data.map Peer.peerId).Nodup) :
    (s.requests.map Peer.peerId).Nodup := by
  have hcontacts : ((s.contacts.filterMap fun i => s.pending.data[i]?).map
      Peer.peerId).Nodup := by
    rw [List.map_filterMap]
    refine h.nodup.filterMap fun i j id hi hj => ?_
    have hget : (s.pending.data.map Peer.peerId)[i]? = (s.pending.data.map Peer.peerId)[j]? := by
      rw [List.getElem?_map, List.getElem?_map, Option.mem_def.mp hi, Option.mem_def.mp hj]
    have hlt : i < (s.pending.data.map Peer.peerId).length := by
      rw [← List.getElem?_map] at hi
      exact (List.getElem?_eq_some_iff.mp hi).1
    exact (List.getElem?_inj hlt hnodup).mp hget
  exact hcontacts.sublist (h.requests.map Peer.peerId)

theorem initialPeers_val (q : Search) (buckets : Model.Buckets) :
    (initialPeers q buckets).val = closestPeers q.own buckets q.targetKey kValue := by
  rw [initialPeers, val_bind, val_pure, findClosestPeers_val,
    List.take_of_length_le (closestPeers_length_le _ _ _ _)]

/-- In every state of every lookup for `target` no two pending entries have the
same id, and no two requests were sent to the same id. -/
def PendingDistinct (own : Option HashID) (buckets : Model.Buckets) (target : HashID) : Prop :=
  ∀ maxPeers findValue net outPeers n,
    let s := after ⟨own, target, maxPeers, findValue⟩ net n
      (LookupState.start (initialPeers ⟨own, target, maxPeers, findValue⟩ buckets).val outPeers
        buckets)
    (s.pending.data.map Peer.peerId).Nodup ∧ (s.requests.map Peer.peerId).Nodup

/-- A node asks every peer at most once in a lookup for `target` exactly when no
visit of its buckets overwrites two slots. -/
theorem pendingDistinct_iff {own : Option HashID} {buckets : Model.Buckets}
    (h : Reachable own buckets) (target : HashID) :
    PendingDistinct own buckets target ↔
      ∀ ownId, own = some ownId → target ≠ ownId →
        VisitsOverwriteOnce buckets target
          (visitOrder (getBucketIndex (distHash ownId target))) kValue := by
  rw [← closestPeers_nodup_iff h]
  constructor
  · intro hdistinct
    have hstart := (hdistinct kValue false (fun _ _ => none) (fun _ => none) 0).1
    rwa [after_zero, start_pending, initialPeers_val] at hstart
  · intro hinitial maxPeers findValue net outPeers n
    generalize hq : (⟨own, target, maxPeers, findValue⟩ : Search) = q
    have hpeers : (initialPeers q buckets).val = closestPeers own buckets target kValue := by
      rw [initialPeers_val, ← hq]
    have hnodup : ((after q net n (LookupState.start (initialPeers q buckets).val outPeers
        buckets)).pending.data.map Peer.peerId).Nodup := by
      refine after_invariant (fun _ _ hstep => hstep.nodup) ?_ n
      rwa [start_pending, hpeers]
    exact ⟨hnodup, (consistent_after q net _ outPeers buckets n).requests_nodup hnodup⟩

def sparsePeer (first last : UInt8) : Peer := ⟨sparseID first last, zeroAddr⟩

/-- The table of the node with id zero after it heard of `peers`. -/
def tableOf (peers : List Peer) : Model.Buckets :=
  peers.foldl (fun buckets peer => (updateBucketPeers (some (sparseID 0 0)) buckets peer).val)
    Buckets.empty

theorem reachable_tableOf (peers : List Peer) : Reachable (some (sparseID 0 0)) (tableOf peers) := by
  induction peers using List.reverseRecOn with
  | nil => exact .empty
  | append_singleton peers peer ih =>
      rw [tableOf, List.foldl_append]
      exact .update ih peer

theorem pendingDistinct_iff_onePeer :
    PendingDistinct (some (sparseID 0 0)) (tableOf [sparsePeer 1 1]) (sparseID 1 0) ↔
      ∀ ownId, some (sparseID 0 0) = some ownId → sparseID 1 0 ≠ ownId →
        VisitsOverwriteOnce (tableOf [sparsePeer 1 1]) (sparseID 1 0)
          (visitOrder (getBucketIndex (distHash ownId (sparseID 1 0)))) kValue :=
  pendingDistinct_iff (reachable_tableOf _) _

/-- Two peers in the bucket of the target, and three in the next one, of which
the one heard of first is nearest. -/
theorem fivePeers_not_pendingDistinct :
    Reachable (some (sparseID 0 0)) (tableOf [sparsePeer 1 1, sparsePeer 1 2, sparsePeer 3 0,
        sparsePeer 2 1, sparsePeer 2 2]) ∧
      ¬ PendingDistinct (some (sparseID 0 0))
        (tableOf [sparsePeer 1 1, sparsePeer 1 2, sparsePeer 3 0, sparsePeer 2 1,
          sparsePeer 2 2])
        (sparseID 1 0) := by
  refine ⟨reachable_tableOf _, fun h => ?_⟩
  have hstart := (h kValue false (fun _ _ => none) (fun _ => none) 0).1
  revert hstart
  decide

end Kademlia.Lookup
