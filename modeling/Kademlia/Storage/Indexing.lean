import Kademlia.Buckets.Closest
import Kademlia.Buckets.Indexing
import Kademlia.Storage.ValueBounds

/-!
The indexes that the handlers use.

Into `values[]` and `closest[]` they stay within the slots as long as the stored
and the received counts do. Into the table of buckets they go with the index of
an id from the packet, which has to have a place there.
-/

namespace Kademlia.Storage

open Foundations Foundations.Traced Model Buckets

variable {node : Node}

/-! ### Slots -/

theorem inSlots_deserializeRpcValue {value : RPCKeyValue} (h : value.numValues ≤ kValue)
    (kvp : KeyValuePair) : InSlots (deserializeRpcValue value kvp) := by
  refine ⟨deserializeRpcValue_stays.mpr h, ?_⟩
  simp only [deserializeRpcValue, stays_bind, stays_touch]
  refine ⟨by decide, by decide, stays_foldlM (fun s i _ => ?_) _⟩
  simp

theorem inSlots_serializeRpcValue {value : KeyValuePair} (h : value.numValues ≤ kValue)
    (serialized : RPCKeyValue) : InSlots (serializeRpcValue value serialized) := by
  refine ⟨serializeRpcValue_stays.mpr h, stays_foldlM (fun s i _ => ?_) _⟩
  simp

theorem inSlots_fillClosest {closest : List Peer} (h : closest.length ≤ kValue) (count : ℕ) :
    InSlots (fillClosest closest count) := by
  refine inSlots_foldlM (fun acc i _ => ?_) _
  cases hi : closest[i]? with
  | none => exact inSlots_pure _
  | some peer =>
      have hlt := (List.getElem?_eq_some_iff.mp hi).1
      exact inSlots_bind.mpr ⟨inSlots_touch fun _ => by omega, inSlots_pure _⟩

theorem closest_length_le {own : Option HashID} {buckets : Model.Buckets} {target : HashID}
    {closest : List Peer}
    (h : (findClosestPeers own buckets target bucketSize).val = some closest) :
    closest.length ≤ kValue := by
  have hval := findClosestPeers_val own buckets target bucketSize
  rw [h, Option.getD_some] at hval
  rw [hval]
  exact closestPeers_length_le _ _ _ _

theorem inSlots_handleFindNode (own : Option HashID) (node : Node) (data : RPCFind) :
    InSlots (handleFindNode own node data) := by
  unfold handleFindNode
  dsimp only
  refine inSlots_bind.mpr ⟨inSlots_findClosestPeers _ _ _ _, ?_⟩
  cases hfound : (findClosestPeers own node.buckets data.key bucketSize).val with
  | none => exact inSlots_pure _
  | some closest =>
      exact inSlots_bind.mpr ⟨inSlots_fillClosest (closest_length_le hfound) _, inSlots_pure _⟩

theorem inSlots_handleFindValue {data : RPCFind}
    (h : ∀ kvp, node.storage data.key = some kvp → kvp.numValues ≤ kValue) (own : Option HashID) :
    InSlots (handleFindValue own node data) := by
  unfold handleFindValue
  dsimp only
  cases hget : storageGetValue node.storage data.key with
  | some kvp =>
      exact inSlots_bind.mpr ⟨inSlots_serializeRpcValue (h kvp hget) _, inSlots_pure _⟩
  | none =>
      refine inSlots_bind.mpr ⟨inSlots_findClosestPeers _ _ _ _, ?_⟩
      cases hfound : (findClosestPeers own node.buckets data.key bucketSize).val with
      | none => exact inSlots_pure _
      | some closest =>
          exact inSlots_bind.mpr ⟨inSlots_fillClosest (closest_length_le hfound) _, inSlots_pure _⟩

theorem inSlots_handleStore {data : RPCStore} (h : data.keyValue.numValues ≤ kValue)
    (stack : KeyValuePair) : InSlots (handleStore stack node data) :=
  inSlots_bind.mpr ⟨inSlots_deserializeRpcValue h _, inSlots_pure _⟩

theorem inSlots_handleBroadcast (own : Option HashID) (data : RPCBroadcast) :
    InSlots (handleBroadcast own node data) :=
  inSlots_bind.mpr ⟨inSlots_updateBucketPeers _ _ _, inSlots_pure _⟩

/-! ### Buckets -/

theorem handleFindNode_defined_iff {own : Option HashID} {data : RPCFind} :
    Defined (handleFindNode own node data) ↔ InTable own data.key := by
  have hclosest : Defined (findClosestPeers own node.buckets data.key bucketSize) ↔
      InTable own data.key := findClosestPeers_defined_iff
  rw [← hclosest]
  refine ⟨fun h => (defined_bind.mp h).1, fun h => ⟨?_, inSlots_handleFindNode own node data⟩⟩
  unfold handleFindNode
  refine stays_bind.mpr ⟨h.buckets, ?_⟩
  split
  · exact stays_pure _ _ _
  · exact stays_bind.mpr ⟨fillClosest_stays_of_ne (by decide) _ _, stays_pure _ _ _⟩

/-- A FIND_VALUE looks into the table when there is no entry for the key. -/
theorem handleFindValue_defined_iff {data : RPCFind}
    (hbounded : ∀ kvp, node.storage data.key = some kvp → kvp.numValues ≤ kValue)
    {own : Option HashID} :
    Defined (handleFindValue own node data) ↔
      (node.storage data.key = none → InTable own data.key) := by
  have hslots := inSlots_handleFindValue hbounded own
  unfold handleFindValue storageGetValue at *
  dsimp only at *
  cases hget : node.storage data.key with
  | some kvp =>
      refine iff_of_true ⟨?_, by simpa only [hget] using hslots⟩ (fun h => by cases h)
      exact stays_bind.mpr ⟨stays_foldlM (fun s i _ => by simp) _, stays_pure _ _ _⟩
  | none =>
      have hclosest : Defined (findClosestPeers own node.buckets data.key bucketSize) ↔
          InTable own data.key := findClosestPeers_defined_iff
      rw [forall_prop_of_true rfl, ← hclosest]
      refine ⟨fun h => (defined_bind.mp h).1, fun h => ⟨?_, by simpa only [hget] using hslots⟩⟩
      refine stays_bind.mpr ⟨h.buckets, ?_⟩
      split
      · exact stays_pure _ _ _
      · exact stays_bind.mpr ⟨fillClosest_stays_of_ne (by decide) _ _, stays_pure _ _ _⟩

theorem handleBroadcast_defined_iff {own : Option HashID} {data : RPCBroadcast} :
    Defined (handleBroadcast own node data) ↔ InTable own data.peer.peerId := by
  rw [handleBroadcast, defined_bind, updateBucketPeers_defined_iff]
  exact and_iff_left (defined_pure _)

theorem handleStore_defined {data : RPCStore} (h : data.keyValue.numValues ≤ kValue)
    (stack : KeyValuePair) : Defined (handleStore stack node data) := by
  refine ⟨stays_bind.mpr ⟨?_, stays_pure _ _ _⟩, inSlots_handleStore h stack⟩
  simp only [deserializeRpcValue, stays_bind, stays_touch]
  refine ⟨by decide, by decide, stays_foldlM (fun s i _ => ?_) _⟩
  simp

/-- The id that the packet makes the node look up in its table has a place there. -/
def Placed (own : Option HashID) (storage : Model.Storage) (contents : Memory) : Prop :=
  match passesSizeCheck contents with
  | some .broadcast => InTable own contents.rpcBroadcast.peer.peerId
  | some .findNode => InTable own contents.rpcFind.key
  | some .findValue => storage contents.rpcFind.key = none → InTable own contents.rpcFind.key
  | _ => True

theorem handleRpcRequest_defined_iff (hbounded : Bounded node.storage) {own : Option HashID}
    {stack : KeyValuePair} {contents : Memory}
    (hcount : passesSizeCheck contents = some .store →
      contents.rpcStore.keyValue.numValues ≤ kValue) :
    Defined (handleRpcRequest own stack node contents) ↔ Placed own node.storage contents := by
  unfold handleRpcRequest Placed
  generalize passesSizeCheck contents = kind at hcount
  cases kind with
  | none => exact iff_of_true (defined_pure _) trivial
  | some kind =>
      cases kind with
      | store => exact iff_of_true (handleStore_defined (hcount rfl) stack) trivial
      | findNode => exact handleFindNode_defined_iff
      | findValue => exact handleFindValue_defined_iff (hbounded _)
      | broadcast => exact handleBroadcast_defined_iff
      | ping => exact iff_of_true (defined_pure _) trivial
      | pingResponse => exact iff_of_true (defined_pure _) trivial
      | storeResponse => exact iff_of_true (defined_pure _) trivial
      | findNodeResponse => exact iff_of_true (defined_pure _) trivial
      | findValueResponse => exact iff_of_true (defined_pure _) trivial

end Kademlia.Storage
